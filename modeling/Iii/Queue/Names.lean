import Iii.Lib.LexCode

/-! The names of the internal queues (`builtins/queue.rs`).

A namespace is folded onto the name of a queue with a separator between the two. Each part is escaped first, so the
only separator that stands unescaped is the one in the middle: what the parts are spelled with is a `PrefixCode`
none of whose words starts with the separator. -/
namespace Iii.Queue.Topics
open Lib

/-- `str::replace` of a character. -/
def replaceChar (c : Char) (new : List Char) (s : String) : String :=
  String.ofList (s.toList.flatMap fun x => if x = c then new else [x])

def escapeNsSegment (segment : String) (sep : Char) : String :=
  replaceChar sep ['\\', sep] (replaceChar '\\' ['\\', '\\'] segment)

def joinNs (start namespaceId : String) (sep : Char) : String :=
  escapeNsSegment start sep ++ String.singleton sep ++ escapeNsSegment namespaceId sep

def nsSep : Char := '@'

/-- A destination: namespace and function. -/
abbrev Destination := String × String

def internalQueue (topic : String) (destination : Destination) : String :=
  joinNs (topic ++ "::" ++ destination.2) destination.1 nsSep

/-- What the escapes make of one character. -/
def escapeWord (sep c : Char) : List Char := if c = '\\' then ['\\', '\\'] else if c = sep then ['\\', sep] else [c]

section
variable {sep : Char}

theorem escapeWord_head (hsep : sep ≠ '\\') (c : Char) : (escapeWord sep c).head? ≠ some sep := by
  unfold escapeWord
  split
  · simpa using hsep.symm
  · split
    · simpa using hsep.symm
    · simpa

/-- What one character is escaped to does not start what another is. -/
theorem escapeWord_cancel (hsep : sep ≠ '\\') {c d : Char} {x y : List Char}
    (h : escapeWord sep c ++ x = escapeWord sep d ++ y) : c = d ∧ x = y := by
  unfold escapeWord at h
  grind -ring -linarith

def escapeCode (hsep : sep ≠ '\\') : PrefixCode Char Char where
  word := escapeWord sep
  ne_nil := fun c => by
    unfold escapeWord
    split
    · simp
    · split <;> simp
  cancel := escapeWord_cancel hsep

theorem toList_escape (hsep : sep ≠ '\\') (s : String) :
    (escapeNsSegment s sep).toList = (escapeCode hsep).encode s.toList := by
  rw [escapeNsSegment, replaceChar, replaceChar, String.toList_ofList, String.toList_ofList, List.flatMap_assoc]
  refine List.flatMap_congr fun c _ => ?_
  show _ = escapeWord sep c
  unfold escapeWord
  split
  · simp [hsep.symm]
  · simp

/-- The name and the namespace can be read off what they are joined to. -/
theorem joinNs_cancel (hsep : sep ≠ '\\') {start start' namespaceId namespaceId' : String}
    (h : joinNs start namespaceId sep = joinNs start' namespaceId' sep) :
    start = start' ∧ namespaceId = namespaceId' := by
  have hlist := congrArg String.toList h
  simp only [joinNs, String.toList_append, String.toList_singleton, List.append_assoc, List.singleton_append,
    toList_escape hsep] at hlist
  obtain ⟨hstart, hns⟩ := (escapeCode hsep).join_cancel (escapeWord_head hsep) hlist
  exact ⟨String.toList_injective hstart, String.toList_injective ((escapeCode hsep).encode_injective hns)⟩

end

theorem joinNs_of_nsSep {start start' namespaceId namespaceId' : String}
    (h : joinNs start namespaceId nsSep = joinNs start' namespaceId' nsSep) :
    start = start' ∧ namespaceId = namespaceId' := joinNs_cancel (by decide) h

/-- **`join_ns` is injective**: queues in different namespaces have different names. -/
theorem joinNs_injective :
    (∀ (sep : Char) (start start' namespaceId namespaceId' : String), sep ≠ '\\' →
      joinNs start namespaceId sep = joinNs start' namespaceId' sep → start = start' ∧ namespaceId = namespaceId') ∧
    ∀ (topic topic' : String) (destination destination' : Destination),
      internalQueue topic destination = internalQueue topic' destination' → destination.1 = destination'.1 :=
  ⟨fun _ _ _ _ _ hsep h => joinNs_cancel hsep h, fun _ _ _ _ h => (joinNs_of_nsSep h).2⟩

/-- The destinations of a topic have queues of their own. -/
theorem internalQueue_injective (topic : String) : Function.Injective (internalQueue topic) := by
  rintro ⟨ns, fid⟩ ⟨ns', fid'⟩ h
  obtain ⟨hstart, hns⟩ := joinNs_of_nsSep h
  have hlist := congrArg String.toList hstart
  simp only [String.toList_append, List.append_assoc, List.append_cancel_left_eq] at hlist
  rw [String.toList_injective hlist, show ns = ns' from hns]

end Iii.Queue.Topics
