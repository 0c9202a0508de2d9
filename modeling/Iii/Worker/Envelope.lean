import Iii.Lib.Trap
import Iii.Worker.Frame

/-! What the edges of an oversized message tell of its envelope (`Oversized::envelope`).

The head is read forward and the tail backward, each at the top level of the object only. An index
or a slice out of range and a depth below zero are traps, and a loop has so many rounds; a position
stays near the bytes, whose number fits a word with room to spare. The bytes of a string literal are
decoded by `serde_json` and an id is parsed by `uuid`: both are left open. -/
namespace Iii.Worker
open Lib

abbrev Scan (α : Type) := Trap Empty α

/-! ### Bytes -/

def quote : Byte := 34
def backslash : Byte := 92
def colon : Byte := 58
def comma : Byte := 44
def braceOpen : Byte := 123
def braceClose : Byte := 125
def bracketOpen : Byte := 91
def bracketClose : Byte := 93

def isJsonSpace (byte : Byte) : Bool := byte = 32 || byte = 9 || byte = 10 || byte = 13

def opens (byte : Byte) : Bool := byte = braceOpen || byte = bracketOpen

def closes (byte : Byte) : Bool := byte = braceClose || byte = bracketClose

/-- What a value that is neither a string nor bracketed ends before. -/
def endsValue (byte : Byte) : Bool := byte = comma || closes byte || isJsonSpace byte

/-- What such a value starts after. -/
def startsValue (byte : Byte) : Bool := byte = colon || byte = comma || opens byte || isJsonSpace byte

section
variable (bytes : List Byte)

/-! ### Forward -/

def skipSpaceLoop : Nat → Nat → Scan Nat
  | 0, pos => if bytes[pos]?.any isJsonSpace then Trap.ranOut else pure pos
  | fuel + 1, pos => if bytes[pos]?.any isJsonSpace then skipSpaceLoop fuel (pos + 1) else pure pos

def skipSpace (pos : Nat) : Scan Nat := skipSpaceLoop bytes bytes.length pos

def stringEndLoop : Nat → Nat → Scan (Option Nat)
  | 0, pos => if pos < bytes.length then Trap.ranOut else pure none
  | fuel + 1, pos =>
    if pos < bytes.length then do
      let byte ← Trap.index bytes pos
      if byte = backslash then stringEndLoop fuel (pos + 2)
      else if byte = quote then pure (some (pos + 1))
      else stringEndLoop fuel (pos + 1)
    else pure none

/-- The end of the string literal that starts at `start`. -/
def stringEnd (start : Nat) : Scan (Option Nat) :=
  if bytes[start]? ≠ some quote then pure none else stringEndLoop bytes bytes.length (start + 1)

def valueEndLoop : Nat → Nat → Nat → Scan (Option Nat)
  | 0, pos, _ => if pos < bytes.length then Trap.ranOut else pure none
  | fuel + 1, pos, depth =>
    if pos < bytes.length then do
      let byte ← Trap.index bytes pos
      if byte = quote then do
        let stop ← stringEnd bytes pos
        match stop with
        | none => pure none
        | some pos => valueEndLoop fuel pos depth
      else if opens byte then valueEndLoop fuel (pos + 1) (depth + 1)
      else if closes byte then do
        let depth ← Trap.sub depth 1
        if depth = 0 then pure (some (pos + 1)) else valueEndLoop fuel (pos + 1) depth
      else valueEndLoop fuel (pos + 1) depth
    else pure none

/-- The end of the value that starts at `start`. -/
def valueEnd (start : Nat) : Scan (Option Nat) :=
  match bytes[start]? with
  | none => pure none
  | some byte =>
    if byte = quote then stringEnd bytes start
    else if opens byte then valueEndLoop bytes bytes.length start 0
    else do
      let rest ← Trap.slice bytes start bytes.length
      match rest.findIdx? endsValue with
      | none => pure none
      | some len => pure (if start + len > start then some (start + len) else none)

/-! ### Backward -/

def skipSpaceBack : Nat → Scan Nat
  | 0 => pure 0
  | stop + 1 => do
    let byte ← Trap.index bytes stop
    if isJsonSpace byte then skipSpaceBack stop else pure (stop + 1)

def stringStartLoop : Nat → Scan (Option Nat)
  | 0 => pure none
  | pos + 1 => do
    let byte ← Trap.index bytes pos
    if byte ≠ quote then stringStartLoop pos
    else
      let before ← Trap.slice bytes 0 pos
      let backslashes := (before.reverse.takeWhile (· = backslash)).length
      if backslashes = pos then pure none
      else if backslashes % 2 = 0 then pure (some pos)
      else stringStartLoop pos

/-- The start of the string literal whose closing quote is the byte before `stop`. -/
def stringStart (stop : Nat) : Scan (Option Nat) :=
  if stop < 2 then pure none
  else do
    let byte ← Trap.index bytes (stop - 1)
    if byte ≠ quote then pure none else stringStartLoop bytes (stop - 1)

def valueStartLoop : Nat → Nat → Nat → Scan (Option Nat)
  | 0, pos, _ => if pos > 0 then Trap.ranOut else pure none
  | fuel + 1, pos, depth =>
    if pos > 0 then do
      let pos := pos - 1
      let byte ← Trap.index bytes pos
      if byte = quote then do
        let start ← stringStart bytes (pos + 1)
        match start with
        | none => pure none
        | some pos => valueStartLoop fuel pos depth
      else if closes byte then valueStartLoop fuel pos (depth + 1)
      else if opens byte then do
        let depth ← Trap.sub depth 1
        if depth = 0 then pure (some pos) else valueStartLoop fuel pos depth
      else valueStartLoop fuel pos depth
    else pure none

/-- The start of the value that ends at `stop`. -/
def valueStart (stop : Nat) : Scan (Option Nat) :=
  if stop = 0 then pure none
  else
    match bytes[stop - 1]? with
    | none => pure none
    | some byte =>
      if byte = quote then stringStart bytes stop
      else if closes byte then valueStartLoop bytes stop stop 0
      else do
        let before ← Trap.slice bytes 0 stop
        -- `rposition`: the last of them
        match before.reverse.findIdx? startsValue with
        | none => pure none
        | some after => pure (if stop - after < stop then some (stop - after) else none)

/-! ### Members -/

variable (decode : List Byte → Option String)

/-- The string that a value is, if it is one. -/
def stringValue (first : Byte) (start stop : Nat) : Scan (Option String) :=
  if first = quote then do
    let literal ← Trap.slice bytes start stop
    pure (decode literal)
  else pure none

def headLoop : Nat → Nat → Scan (List (String × String))
  | 0, _ => Trap.ranOut
  | fuel + 1, pos => do
    let pos ← skipSpace bytes pos
    let keyEnd ← stringEnd bytes pos
    match keyEnd with
    | none => pure []
    | some keyEnd => do
      let literal ← Trap.slice bytes pos keyEnd
      match decode literal with
      | none => pure []
      | some key => do
        let pos ← skipSpace bytes keyEnd
        if bytes[pos]? ≠ some colon then pure []
        else do
          let pos ← skipSpace bytes (pos + 1)
          let stop ← valueEnd bytes pos
          match stop with
          | none => pure []
          | some stop => do
            let first ← Trap.index bytes pos
            let value ← stringValue bytes decode first pos stop
            let pos ← skipSpace bytes stop
            if bytes[pos]? ≠ some comma then pure (value.toList.map (key, ·))
            else do
              let rest ← headLoop fuel (pos + 1)
              pure (value.toList.map (key, ·) ++ rest)

/-- The string members at the top level of the object that `bytes` starts, up to where it is cut off. -/
def headMembers : Scan (List (String × String)) := do
  let pos ← skipSpace bytes 0
  if bytes[pos]? ≠ some braceOpen then pure [] else headLoop bytes decode bytes.length (pos + 1)

/-- The byte before a position, which is not the first one. -/
def byteBefore (stop : Nat) : Scan (Option Byte) :=
  if stop = 0 then pure none
  else do
    let byte ← Trap.index bytes (stop - 1)
    pure (some byte)

def tailLoop : Nat → Nat → Scan (List (String × String))
  | 0, _ => Trap.ranOut
  | fuel + 1, stop => do
    let stop ← skipSpaceBack bytes stop
    let start ← valueStart bytes stop
    match start with
    | none => pure []
    | some start => do
      let first ← Trap.index bytes start
      let value ← stringValue bytes decode first start stop
      let stop ← skipSpaceBack bytes start
      let before ← byteBefore bytes stop
      if before ≠ some colon then pure []
      else do
        let stop ← skipSpaceBack bytes (stop - 1)
        let keyStart ← stringStart bytes stop
        match keyStart with
        | none => pure []
        | some keyStart => do
          let literal ← Trap.slice bytes keyStart stop
          match decode literal with
          | none => pure []
          | some key => do
            let stop ← skipSpaceBack bytes keyStart
            let before ← byteBefore bytes stop
            if before ≠ some comma then pure (value.toList.map (key, ·))
            else do
              let rest ← tailLoop fuel (stop - 1)
              pure (value.toList.map (key, ·) ++ rest)

/-- The string members at the top level of the object that `bytes` ends, read backward until it is cut off. -/
def tailMembers : Scan (List (String × String)) := do
  let stop ← skipSpaceBack bytes bytes.length
  let before ← byteBefore bytes stop
  if before ≠ some braceClose then pure [] else tailLoop bytes decode bytes.length (stop - 1)

end

structure EnvelopeFields (U : Type) where
  messageType : Option String
  invocationId : Option U
  functionId : Option String

section
variable {U : Type} (parseStr : String → Option U)

/-- A field that is found first wins. -/
def EnvelopeFields.note (fields : EnvelopeFields U) (member : String × String) : EnvelopeFields U :=
  if member.1 = "type" ∧ fields.messageType.isNone then { fields with messageType := some member.2 }
  else if member.1 = "invocation_id" ∧ fields.invocationId.isNone then
    { fields with invocationId := parseStr member.2 }
  else if member.1 = "function_id" ∧ fields.functionId.isNone then { fields with functionId := some member.2 }
  else fields

/-- `Oversized::envelope`. -/
def Oversized.envelope (decode : List Byte → Option String) (o : Oversized) : Scan (EnvelopeFields U) := do
  let head ← headMembers o.head decode
  let tail ← tailMembers o.tail decode
  pure ((head ++ tail).foldl (EnvelopeFields.note parseStr) ⟨none, none, none⟩)

end

end Iii.Worker
