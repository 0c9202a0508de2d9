import Iii.Lib.Window
import Iii.Worker.Inbound
import Mathlib.Tactic.FinCases

/-! What the reader keeps of a message.

`unmask` works in four-byte words from any offset and agrees with masking byte by byte.
`Body.Holds` says what a message's body is worth while a frame of it is read: all of the
payload, or its head and a tail that shows as much of its end as the bytes still to come
leave in sight. `consume` keeps it chunk by chunk, however the frame is split. -/
namespace Iii.Worker
open Lib

/-! ### Masks -/

@[simp] theorem length_masked (mask : Mask) (offset : Nat) (bytes : List Byte) :
    (masked mask offset bytes).length = bytes.length := by
  simp [masked]

@[simp] theorem masked_nil (mask : Mask) (offset : Nat) : masked mask offset [] = [] := rfl

theorem masked_append (mask : Mask) (offset : Nat) (l m : List Byte) :
    masked mask offset (l ++ m) = masked mask offset l ++ masked mask (offset + l.length) m := by
  rw [masked, List.mapIdx_append]
  simp only [masked, Nat.add_assoc, Nat.add_comm l.length]

theorem masked_cons (mask : Mask) (offset : Nat) (byte : Byte) (l : List Byte) :
    masked mask offset (byte :: l) = maskAt mask offset byte :: masked mask (offset + 1) l :=
  masked_append mask offset [byte] l

theorem take_masked (mask : Mask) (offset k : Nat) (l : List Byte) :
    (masked mask offset l).take k = masked mask offset (l.take k) := by
  apply List.ext_getElem?
  intro i
  simp only [masked, List.getElem?_take, List.getElem?_mapIdx]
  split <;> simp_all

theorem drop_masked (mask : Mask) (offset k : Nat) (l : List Byte) :
    (masked mask offset l).drop k = masked mask (offset + k) (l.drop k) := by
  apply List.ext_getElem?
  intro i
  simp only [masked, List.getElem?_drop, List.getElem?_mapIdx, Nat.add_assoc]

theorem masked_masked (mask : Mask) (offset : Nat) (l : List Byte) :
    masked mask offset (masked mask offset l) = l := by
  apply List.ext_getElem?
  intro i
  simp only [masked, List.getElem?_mapIdx, Option.map_map]
  cases l[i]? <;> simp [maskAt, UInt8.xor_assoc]

theorem maskAt_add_four (mask : Mask) (offset : Nat) (byte : Byte) :
    maskAt mask (offset + 4) byte = maskAt mask offset byte := by
  simp [maskAt, Fin.ofNat]

theorem masked_add_four (mask : Mask) (offset : Nat) (l : List Byte) :
    masked mask (offset + 4) l = masked mask offset l := by
  induction l generalizing offset with
  | nil => rfl
  | cons byte rest ih =>
    rw [masked_cons, masked_cons, maskAt_add_four, Nat.add_right_comm, ih]

theorem toNeBytes_append (a b c d : BitVec 8) :
    toNeBytes (d ++ c ++ b ++ a) = [⟨a⟩, ⟨b⟩, ⟨c⟩, ⟨d⟩] := by
  have byte (k : Nat) (x : BitVec 8)
      (h : ∀ i, i < 8 → (d ++ c ++ b ++ a).getLsbD (k + i) = x.getLsbD i) :
      (d ++ c ++ b ++ a).extractLsb' k 8 = x := by
    apply BitVec.eq_of_getLsbD_eq
    intro i hi
    rw [BitVec.getLsbD_extractLsb', h i hi]
    simp [hi]
  rw [toNeBytes, byte 0 a, byte 8 b, byte 16 c, byte 24 d]
  all_goals
    intro i hi
    simp only [BitVec.getLsbD_append]
  · grind -ring -linarith
  · grind -ring -linarith
  · grind -ring -linarith
  · grind -ring -linarith

/-- A word under a word is four bytes under four bytes. -/
theorem toNeBytes_xor (a b c d a' b' c' d' : Byte) :
    toNeBytes (fromNeBytes a b c d ^^^ fromNeBytes a' b' c' d') =
      [a ^^^ a', b ^^^ b', c ^^^ c', d ^^^ d'] := by
  rw [fromNeBytes, fromNeBytes, BitVec.xor_append, BitVec.xor_append, BitVec.xor_append]
  exact toNeBytes_append _ _ _ _

/-- Words and the bytes after them come out alike, under any key that is the mask as seen
from `offset`. -/
theorem unmaskWords_eq (key mask : Mask) (offset : Nat)
    (hkey : ∀ (i : Fin 4) (byte : Byte), byte ^^^ key i = maskAt mask (offset + i) byte)
    (buf : List Byte) :
    unmaskWords key (fromNeBytes (key 0) (key 1) (key 2) (key 3)) buf = masked mask offset buf := by
  induction buf using unmaskWords.induct with
  | case1 a b c d rest ih =>
    rw [unmaskWords, toNeBytes_xor, ih, hkey, hkey, hkey, hkey]
    simp only [masked_cons, Nat.add_assoc, Nat.reduceAdd, masked_add_four]
    rfl
  | case2 rest short =>
    rw [unmaskWords]
    · match rest, short with
      | [], _ => rfl
      | [a], _ => simp [masked_cons, hkey]
      | [a, b], _ => simp [masked_cons, hkey]
      | [a, b, c], _ => simp [masked_cons, Nat.add_assoc, hkey]
      | a :: b :: c :: d :: rest, short => exact absurd rfl (short a b c d rest)
    · exact short

theorem unmask_eq (buf : List Byte) (mask : Mask) (offset : Nat) :
    unmask buf mask offset = masked mask offset buf := by
  apply unmaskWords_eq
  intro i byte
  simp [maskAt, Fin.ofNat]

/-- Bytes off the wire come out as they were meant. -/
theorem unmask_masked (mask : Mask) (offset : Nat) (l : List Byte) :
    unmask (masked mask offset l) mask offset = l := by
  rw [unmask_eq, masked_masked]

/-! ### Bodies -/

/-- What a body is worth with `payload` read and `remaining` bytes of its frame to come. -/
def Body.Holds (tooLarge : Prop) (remaining : Nat) (payload : List Byte) : Body → Prop
  | .kept data => ¬ tooLarge ∧ data = payload
  | .skipped head tail =>
    tooLarge ∧ head = payload.take edgeBytes ∧ tail.length ≤ payload.length - edgeBytes ∧
      Shows (edgeBytes - remaining) tail (payload.drop edgeBytes)

/-- The tail takes what can still be in sight at the end of the frame. -/
theorem consumeTail_shows (frame : FrameState) (offset : Nat) (plain tail q : List Byte)
    (hlen : offset + plain.length ≤ frame.len)
    (h : Shows (edgeBytes - (frame.len - offset)) tail q) :
    Shows (edgeBytes - (frame.len - (offset + plain.length)))
      (consumeTail frame offset (masked frame.mask offset plain) tail) (q ++ plain) := by
  unfold consumeTail
  simp only [length_masked, drop_masked, unmask_masked]
  set skip := min (frame.len - edgeBytes - offset) plain.length with hskip
  have hgrown : Shows (edgeBytes - (frame.len - (offset + plain.length)))
      (tail ++ plain.drop skip) (q ++ plain) := by
    by_cases hnear : frame.len - edgeBytes ≤ offset
    · -- all of the chunk is within the frame's last edge
      have hskip0 : skip = 0 := by omega
      rw [hskip0, List.drop_zero]
      exact (h.append plain).mono (by omega)
    · -- what is kept of the chunk fills all that is in sight
      have hsplit : q ++ plain = q ++ plain.take skip ++ plain.drop skip := by
        rw [List.append_assoc, List.take_append_drop]
      rw [hsplit]
      apply Shows.append_right
      rw [List.length_drop]
      omega
  split
  · rename_i hempty
    have hnil : plain.drop skip = [] := by
      rw [List.isEmpty_iff] at hempty
      exact List.eq_nil_of_length_eq_zero (by simpa using congrArg List.length hempty)
    rwa [hnil, List.append_nil] at hgrown
  · split
    · exact hgrown.trim (by omega)
    · exact hgrown

theorem length_consumeTail_le (frame : FrameState) (offset : Nat) (chunk tail : List Byte) :
    (consumeTail frame offset chunk tail).length ≤ tail.length + chunk.length := by
  unfold consumeTail
  simp only [unmask_eq]
  split
  · omega
  · split
    · simp only [List.length_drop, List.length_append, length_masked]
      omega
    · simp only [List.length_drop, List.length_append, length_masked]
      omega

theorem consumeSkipped_holds {tooLarge : Prop} (frame : FrameState) (offset : Nat)
    (plain payload head tail : List Byte) (hlen : offset + plain.length ≤ frame.len)
    (h : Body.Holds tooLarge (frame.len - offset) payload (.skipped head tail)) :
    Body.Holds tooLarge (frame.len - (offset + plain.length)) (payload ++ plain)
      (consumeSkipped frame offset (masked frame.mask offset plain) head tail) := by
  obtain ⟨hover, rfl, htaillen, hshows⟩ := h
  unfold consumeSkipped
  simp only [length_masked, take_masked, drop_masked, unmask_masked, List.length_take]
  split
  · -- the head is not full, so the tail is still empty
    have hpay : payload.length < edgeBytes := by omega
    have htail : tail = [] := List.eq_nil_of_length_eq_zero (by omega)
    have hmin : min edgeBytes payload.length = payload.length := by omega
    have hdrop : payload.drop edgeBytes = [] := List.drop_of_length_le (by omega)
    subst htail
    rw [hmin, List.take_of_length_le (by omega : payload.length ≤ edgeBytes)]
    set take := min (edgeBytes - payload.length) plain.length with htake
    have hshows := consumeTail_shows frame (offset + take) (plain.drop take) [] []
      (by rw [List.length_drop]; omega) (Shows.refl _ _)
    have hlength := length_consumeTail_le frame (offset + take)
      (masked frame.mask (offset + take) (plain.drop take)) []
    rw [length_masked, List.length_drop, List.length_nil] at hlength
    refine ⟨hover, ?_, ?_, ?_⟩
    · rw [List.take_append, List.take_of_length_le (by omega : payload.length ≤ edgeBytes), htake,
        ← List.take_eq_take_min]
    · rw [List.length_append]
      omega
    · have hrest : (payload ++ plain).drop edgeBytes = plain.drop take := by
        rw [List.drop_append, hdrop, List.nil_append, htake, ← List.drop_eq_drop_min]
      have hsum : offset + take + (plain.drop take).length = offset + plain.length := by
        rw [List.length_drop]
        omega
      rw [hrest]
      rwa [hsum, List.nil_append] at hshows
  · have hpay : edgeBytes ≤ payload.length := by omega
    have hlength := length_consumeTail_le frame offset (masked frame.mask offset plain) tail
    rw [length_masked] at hlength
    refine ⟨hover, (List.take_append_of_le_length hpay).symm, ?_, ?_⟩
    · rw [List.length_append]
      omega
    · rw [List.drop_append_of_le_length hpay]
      exact consumeTail_shows frame offset plain tail _ hlen hshows

/-! ### Messages -/

/-- A message that is being read, with `remaining` bytes of its frame to come. -/
structure MessageState.Holds (limit remaining : Nat) (m : Open) (s : MessageState) : Prop where
  text : s.text = m.text
  size : s.size = min (m.payload.length + remaining) maxU64
  body : s.body.Holds (limit < s.size) remaining m.payload

namespace MessageState.Holds
variable {limit remaining : Nat} {m : Open} {s : MessageState}

theorem start (limit : Nat) (text : Bool) :
    Holds limit 0 { text, payload := [] } { text, size := 0, body := .kept [] } :=
  ⟨rfl, by simp, Nat.not_lt_zero limit, rfl⟩

/-- What is left when the payload kept so far goes over the limit. -/
theorem skip_body (size : Nat) (payload : List Byte) (text : Bool) (hover : limit < size) :
    (MessageState.skip { text, size, body := .kept payload }).body.Holds (limit < size) remaining
      payload := by
  have hhead : payload.take (min payload.length edgeBytes) = payload.take edgeBytes := by
    rw [Nat.min_comm, ← List.take_eq_take_min]
  simp only [MessageState.skip, hhead, List.length_take, ← List.drop_eq_drop_min]
  refine ⟨hover, rfl, ?_, ?_⟩
  · simp only [List.length_drop]
    omega
  · exact (Shows.refl _ _).trim (Nat.sub_le ..)

/-- A frame that starts leaves less of what is there in sight. -/
theorem grow (h : s.Holds limit 0 m) (len : Nat) : (s.grow limit len).Holds limit len m := by
  obtain ⟨htext, hsize, hbody⟩ := h
  have hgrown : min (s.size + len) maxU64 = min (m.payload.length + len) maxU64 := by omega
  cases hb : s.body with
  | kept data =>
    rw [hb] at hbody
    obtain ⟨-, rfl⟩ := hbody
    unfold MessageState.grow
    simp only [hgrown, hb]
    split
    · rename_i hover
      refine ⟨htext, rfl, ?_⟩
      exact skip_body _ _ _ hover
    · rename_i hunder
      exact ⟨htext, rfl, hunder, rfl⟩
  | skipped head tail =>
    rw [hb] at hbody
    obtain ⟨hover, hhead, hlength, hshows⟩ := hbody
    have hover' : limit < min (m.payload.length + len) maxU64 := by omega
    unfold MessageState.grow
    simp only [hgrown, hb, hover', if_true, MessageState.skip]
    exact ⟨htext, rfl, hover', hhead, hlength, hshows.mono (by omega)⟩

/-- A frame at its end leaves what the message is worth. -/
theorem finish (h : s.Holds limit 0 m) :
    s.finish = match m.finish limit with
      | some inbound => .ok inbound
      | none => .error .utf8 := by
  obtain ⟨htext, hsize, hbody⟩ := h
  have hsize' : s.size = sizeOf m.payload := by rw [hsize, sizeOf, Nat.add_zero]
  rw [hsize'] at hbody
  cases hb : s.body with
  | kept data =>
    rw [hb] at hbody
    obtain ⟨hunder, rfl⟩ := hbody
    simp only [MessageState.finish, Open.finish, hb, htext, hunder, if_false]
    cases m.text
    · rfl
    · cases utf8 m.payload <;> rfl
  | skipped head tail =>
    rw [hb] at hbody
    obtain ⟨hover, rfl, -, hshows⟩ := hbody
    have htail : tail.drop (tail.length - edgeBytes) = lastEdge m.payload := by
      rw [lastEdge, ← rtake_drop]
      exact hshows
    simp only [MessageState.finish, Open.finish, hb, hover, if_true, htail, hsize']

end MessageState.Holds

end Iii.Worker
