import Iii.Worker.Inbound

/-! A header parser.

The parser the engine uses is not its own; this one does on every input what is asked of it:
it reads what `FrameHeader.wire` writes, waits for what is cut, and refuses a reserved opcode
once its header is whole. -/
namespace Iii.Worker

def OpCode.ofCode (code : Nat) : OpCode :=
  match code with
  | 0 => .data .continue
  | 1 => .data .text
  | 2 => .data .binary
  | 8 => .control .close
  | 9 => .control .ping
  | 10 => .control .pong
  | code => if code < 8 then .data (.reserved (Fin.ofNat 5 (code - 3)))
      else .control (.reserved (Fin.ofNat 5 (code - 11)))

def fromBigEndian (bytes : List Byte) : Nat :=
  bytes.foldl (fun n byte => 256 * n + byte.toNat) 0

/-- How many bytes extend the length. -/
def extraBytes (bits : Nat) : Nat :=
  if bits = 126 then 2 else if bits = 127 then 8 else 0

def parseHeader : HeaderParser
  | first :: second :: more =>
    let bits := second.toNat % 128
    let extra := extraBytes bits
    let isMasked := decide (128 ≤ second.toNat)
    let maskLength := if isMasked then 4 else 0
    if more.length < extra + maskLength then .ok none else
    let header : FrameHeader :=
      { isFinal := first.toNat.testBit 7
        rsv1 := first.toNat.testBit 6
        rsv2 := first.toNat.testBit 5
        rsv3 := first.toNat.testBit 4
        opcode := OpCode.ofCode (first.toNat % 16)
        mask := if isMasked then some fun i => (more.drop extra).getD i 0 else none }
    if header.opcode.isReserved then .error (.protocol (.invalidOpcode header.opcode.code))
    else .ok (some (header, if extra = 0 then bits else fromBigEndian (more.take extra),
      2 + extra + maskLength))
  | _ => .ok none

theorem ofCode_code (opcode : OpCode) : OpCode.ofCode opcode.code = opcode := by
  revert opcode
  rintro (data | control)
  · rcases data with _ | _ | _ | code
    · rfl
    · rfl
    · rfl
    · revert code
      decide
  · rcases control with _ | _ | _ | code
    · rfl
    · rfl
    · rfl
    · revert code
      decide

theorem code_lt (opcode : OpCode) : opcode.code < 16 := by
  rcases opcode with (_ | _ | _ | code) | (_ | _ | _ | code) <;> simp only [OpCode.code] <;> omega

/-- The bits of the first byte. -/
theorem first_bits (h : FrameHeader) :
    h.first.toNat % 16 = h.opcode.code ∧ h.first.toNat.testBit 7 = h.isFinal ∧
      h.first.toNat.testBit 6 = h.rsv1 ∧ h.first.toNat.testBit 5 = h.rsv2 ∧
      h.first.toNat.testBit 4 = h.rsv3 := by
  have hcode := code_lt h.opcode
  unfold FrameHeader.first
  generalize h.opcode.code = code at hcode
  revert code
  cases h.isFinal <;> cases h.rsv1 <;> cases h.rsv2 <;> cases h.rsv3 <;> decide

theorem length_bigEndian (width n : Nat) : (bigEndian width n).length = width := by
  induction width generalizing n with
  | zero => rfl
  | succ width ih => rw [bigEndian, List.length_append, ih]; rfl

theorem fromBigEndian_bigEndian (width n : Nat) (h : n < 256 ^ width) :
    fromBigEndian (bigEndian width n) = n := by
  induction width generalizing n with
  | zero =>
    rw [Nat.pow_zero] at h
    have hzero : n = 0 := by omega
    rw [hzero]
    rfl
  | succ width ih =>
    have hdiv : n / 256 < 256 ^ width := by
      rw [Nat.div_lt_iff_lt_mul (by decide), ← Nat.pow_succ]
      exact h
    have hfold := ih (n / 256) hdiv
    unfold fromBigEndian at hfold ⊢
    rw [bigEndian, List.foldl_append, hfold]
    simp only [List.foldl_cons, List.foldl_nil, UInt8.toNat_ofNat']
    omega

theorem lengthBits_cases (len : Nat) :
    (len ≤ 125 ∧ lengthBits len = (len, [])) ∨ (len < 2 ^ 16 ∧ lengthBits len = (126, bigEndian 2 len)) ∨
      lengthBits len = (127, bigEndian 8 len) := by
  unfold lengthBits
  split
  · rename_i h
    exact .inl ⟨h, rfl⟩
  · split
    · rename_i h
      exact .inr (.inl ⟨h, rfl⟩)
    · exact .inr (.inr rfl)

theorem lengthBits_lt (len : Nat) : (lengthBits len).1 < 128 := by
  rcases lengthBits_cases len with ⟨h, hl⟩ | ⟨-, hl⟩ | hl <;> simp only [hl] <;> omega

theorem extraBytes_lengthBits (len : Nat) :
    extraBytes (lengthBits len).1 = (lengthBits len).2.length := by
  rcases lengthBits_cases len with ⟨h, hl⟩ | ⟨-, hl⟩ | hl
  · have h6 : len ≠ 126 := by omega
    have h7 : len ≠ 127 := by omega
    simp [hl, extraBytes, h6, h7]
  · simp [hl, extraBytes, length_bigEndian]
  · simp [hl, extraBytes, length_bigEndian]

theorem length_of_lengthBits (len : Nat) (h : len < 2 ^ 63) :
    (if (lengthBits len).2.length = 0 then (lengthBits len).1 else fromBigEndian (lengthBits len).2) =
      len := by
  rcases lengthBits_cases len with ⟨-, hl⟩ | ⟨hlt, hl⟩ | hl
  · simp [hl]
  · simp only [hl, length_bigEndian]
    exact fromBigEndian_bigEndian 2 len (by omega)
  · simp only [hl, length_bigEndian]
    exact fromBigEndian_bigEndian 8 len (by omega)

/-- The bits of the second byte. -/
theorem second_bits (isMasked : Bool) (bits : Nat) (h : bits < 128) :
    (UInt8.ofNat (128 * isMasked.toNat + bits)).toNat % 128 = bits ∧
      decide (128 ≤ (UInt8.ofNat (128 * isMasked.toNat + bits)).toNat) = isMasked := by
  rw [UInt8.toNat_ofNat']
  cases isMasked
  · simp only [Bool.toNat_false]
    refine ⟨by omega, ?_⟩
    rw [decide_eq_false_iff_not]
    omega
  · simp only [Bool.toNat_true]
    refine ⟨by omega, ?_⟩
    rw [decide_eq_true_iff]
    omega

theorem length_maskBytes (h : FrameHeader) :
    h.maskBytes.length = if h.mask.isSome then 4 else 0 := by
  unfold FrameHeader.maskBytes
  cases h.mask <;> simp

theorem mask_of_maskBytes (h : FrameHeader) (tail : List Byte) :
    (if h.mask.isSome then some fun i : Fin 4 => (h.maskBytes ++ tail).getD i 0 else none) = h.mask := by
  unfold FrameHeader.maskBytes
  cases hm : h.mask with
  | none => rfl
  | some mask =>
    simp only [Option.isSome_some, if_true]
    congr 1
    funext i
    have hi : i.val < (List.ofFn mask).length := by simp
    rw [List.getD_eq_getElem?_getD, List.getElem?_append_left hi, List.getElem?_eq_getElem hi,
      List.getElem_ofFn]
    rfl

theorem parseHeader_wire (h : FrameHeader) (len : Nat) (more : List Byte) :
    parseHeader (h.first :: UInt8.ofNat (128 * h.mask.isSome.toNat + (lengthBits len).1) :: more) =
      if more.length < (lengthBits len).2.length + h.maskBytes.length then .ok none
      else if h.opcode.isReserved then .error (.protocol (.invalidOpcode h.opcode.code))
      else .ok (some ({ h with
          mask := if h.mask.isSome then some fun i => (more.drop (lengthBits len).2.length).getD i 0 else none },
        if (lengthBits len).2.length = 0 then (lengthBits len).1
          else fromBigEndian (more.take (lengthBits len).2.length),
        2 + (lengthBits len).2.length + h.maskBytes.length)) := by
  obtain ⟨hcode, hfinal, hrsv1, hrsv2, hrsv3⟩ := first_bits h
  obtain ⟨hbits, hmasked⟩ := second_bits h.mask.isSome _ (lengthBits_lt len)
  simp only [parseHeader, hbits, hmasked, hcode, hfinal, hrsv1, hrsv2, hrsv3, ofCode_code,
    extraBytes_lengthBits, length_maskBytes]

theorem readsHeaders_parseHeader : ReadsHeaders parseHeader where
  whole h len tail hlen := by
    have hlong : ¬ ((lengthBits len).2 ++ h.maskBytes ++ tail).length <
        (lengthBits len).2.length + h.maskBytes.length := by
      simp only [List.length_append]
      omega
    rw [FrameHeader.wire, List.cons_append, List.cons_append, parseHeader_wire, if_neg hlong]
    cases hreserved : h.opcode.isReserved with
    | true => exact .inr ⟨rfl, rfl⟩
    | false =>
      left
      rw [List.append_assoc, List.drop_left, List.take_left, mask_of_maskBytes,
        length_of_lengthBits len hlen]
      simp
      omega
  cut h len bytes missing hlen hmissing hwire := by
    match bytes, hwire with
    | [], _ => rfl
    | [_], _ => rfl
    | first :: second :: more, hwire =>
      rw [FrameHeader.wire, List.cons_append, List.cons_append] at hwire
      injection hwire with hfirst hwire
      injection hwire with hsecond hmore
      have hshort : more.length < (lengthBits len).2.length + h.maskBytes.length := by
        have := congrArg List.length hmore
        have := List.length_pos_iff.mpr hmissing
        simp only [List.length_append] at *
        omega
      rw [hfirst, hsecond, parseHeader_wire, if_pos hshort]

end Iii.Worker
