import Iii.Json.Text

/-! Paths of the filter language: `root ("." segment)*`.

`\.` and `\\` are the only escapes. Five roots name parts of the document; `@` is
the current array element, a root only inside `$any`, where it is the only one.
A segment that is a canonical decimal indexes an array, and names a key of an
object like any other segment. -/
namespace Iii.Filter

/-! ### Errors and limits -/

inductive ErrorCode where
  | invalidFilter
  | invalidFilterPath
  deriving DecidableEq

structure FilterError where
  code : ErrorCode
  message : String
  deriving DecidableEq

def FilterError.invalid (message : String) : FilterError := ⟨.invalidFilter, message⟩

def maxDepth : Nat := 8
def maxNodes : Nat := 64
def maxSetItems : Nat := 256
def maxPathSegments : Nat := 16
def maxEncodedBytes : Nat := 8 * 1024
def maxLiteralDepth : Nat := 32
def maxJsonDepth : Nat := 120

/-! ### Documents -/

/-- The document a filter is evaluated against; `none` is absent. -/
structure Doc where
  input : Option Value
  output : Option Value
  error : Option Value
  caller : Option Value
  metadata : Option Value

def Doc.empty : Doc := ⟨none, none, none, none, none⟩

/-- `Doc::from_value`: other keys are ignored, a non-object has every root absent. -/
def Doc.fromValue : Value → Doc
  | .object map => ⟨Json.get? map "input", Json.get? map "output", Json.get? map "error",
      Json.get? map "caller", Json.get? map "metadata"⟩
  | _ => Doc.empty

inductive Root where
  | input | output | error | caller | metadata | element
  deriving DecidableEq

def Root.fromSegment (segment : String) : Option Root :=
  if segment = "input" then some .input
  else if segment = "output" then some .output
  else if segment = "error" then some .error
  else if segment = "caller" then some .caller
  else if segment = "metadata" then some .metadata
  else if segment = "@" then some .element
  else none

def Doc.root (doc : Doc) (element : Option Value) : Root → Option Value
  | .input => doc.input
  | .output => doc.output
  | .error => doc.error
  | .caller => doc.caller
  | .metadata => doc.metadata
  | .element => element

/-! ### Parsing -/

/-- `index` is used on arrays, `key` on objects. -/
structure Segment where
  key : String
  index : Option Nat
  deriving DecidableEq

structure Path where
  root : Root
  segments : List Segment
  deriving DecidableEq

def emptySegment (raw : String) : FilterError :=
  if raw = "" then .invalid "empty path" else .invalid ("path `" ++ raw ++ "`: empty segment")

/-- The loop over the characters of a path. -/
def splitPath (raw : String) : List Char → (parts : List String) → (current : List Char) →
    Except FilterError (List String)
  | [], parts, current =>
    if current = [] then .error (emptySegment raw) else .ok (parts ++ [String.ofList current])
  | ['\\'], _, _ => .error (.invalid ("path `" ++ raw ++ "`: dangling `\\` at the end"))
  | '\\' :: c :: rest, parts, current =>
    if c = '.' ∨ c = '\\' then splitPath raw rest parts (current ++ [c])
    else .error (.invalid ("path `" ++ raw ++ "`: invalid escape `\\" ++ String.ofList [c]
      ++ "` (only `\\.` and `\\\\` are allowed)"))
  | c :: rest, parts, current =>
    if c = '.' then
      if current = [] then .error (emptySegment raw)
      else splitPath raw rest (parts ++ [String.ofList current]) []
    else splitPath raw rest parts (current ++ [c])

/-- `0` or `[1-9][0-9]*`. -/
def isCanonical : List Char → Bool
  | ['0'] => true
  | c :: rest => '1' ≤ c && c ≤ '9' && rest.all Char.isDigit
  | [] => false

/-- A canonical decimal within `usize`. -/
def canonicalIndex (segment : String) : Option Nat :=
  if isCanonical segment.toList then
    let n := Nat.ofDigitChars 10 segment.toList 0
    if n < 2 ^ 64 then some n else none
  else none

/-- Which root a first segment names, inside `$any` or outside. -/
def parseRoot (raw first : String) (inAny : Bool) : Except FilterError Root :=
  let atElement := FilterError.invalid
    ("path `" ++ raw ++ "`: inside `$any` paths start at `@`, the current element")
  match Root.fromSegment first with
  | some .element =>
    if inAny then .ok .element
    else .error (.invalid ("path `" ++ raw ++ "`: `@` paths are only allowed inside `$any`"))
  | some root => if inAny then .error atElement else .ok root
  | none =>
    if inAny then .error atElement
    else .error (.invalid ("path `" ++ raw ++ "`: unknown root `" ++ first
      ++ "` (expected input, output, error, caller or metadata)"))

def Path.parse (raw : String) (inAny : Bool) : Except FilterError Path := do
  let parts ← splitPath raw raw.toList [] []
  let root ← parseRoot raw (parts.headD "") inAny
  let segments := parts.tail.map fun key => ⟨key, canonicalIndex key⟩
  if segments.length > maxPathSegments then
    throw (.invalid ("path `" ++ raw ++ "`: " ++ toString segments.length
      ++ " segments after the root (limit " ++ toString maxPathSegments ++ ")"))
  return ⟨root, segments⟩

/-- `@` is the root of the paths inside `$any`, and of those only. -/
theorem parseRoot_ok {raw first : String} {inAny : Bool} {root : Root}
    (h : parseRoot raw first inAny = .ok root) : root = .element ↔ inAny = true := by
  unfold parseRoot at h
  cases hroot : Root.fromSegment first with
  | none =>
    rw [hroot] at h
    cases inAny <;> cases h
  | some r =>
    rw [hroot] at h
    cases r <;> cases inAny <;> cases h <;> simp

theorem Path.parse_ok {raw : String} {inAny : Bool} {p : Path} (h : Path.parse raw inAny = .ok p) :
    (p.root = .element ↔ inAny = true) ∧ ∀ s ∈ p.segments, s.index = canonicalIndex s.key := by
  unfold Path.parse at h
  cases hparts : splitPath raw raw.toList [] [] with
  | error e =>
    rw [hparts] at h
    cases h
  | ok parts =>
    cases hroot : parseRoot raw (parts.headD "") inAny with
    | error e =>
      simp only [hparts, hroot, bind, Except.bind] at h
      cases h
    | ok root =>
      simp only [hparts, hroot, bind, Except.bind] at h
      split at h
      · cases h
      · cases h
        exact ⟨parseRoot_ok hroot, List.forall_mem_map.mpr fun _ _ => rfl⟩

/-! ### Resolution -/

/-- One segment: a key of an object, an index of an array, absent anywhere else. -/
def Segment.step (segment : Segment) : Value → Option Value
  | .object map => Json.get? map segment.key
  | .array items => segment.index.bind (fun i => items[i]?)
  | _ => none

def Segment.walk : List Segment → Value → Option Value
  | [], current => some current
  | segment :: rest, current => (segment.step current).bind (walk rest)

/-- Resolves the path against the document; `none` is absent. -/
def Path.resolve (path : Path) (doc : Doc) (element : Option Value) : Option Value :=
  (doc.root element path.root).bind (Segment.walk path.segments)

example : (Path.parse "input.a\\.b.0" false).toOption =
    some ⟨.input, [⟨"a.b", none⟩, ⟨"0", some 0⟩]⟩ := by decide

end Iii.Filter
