import Iii.Shell.Frame

/-! The frames of a stream come back as they were sent.

What a call returns depends on the bytes that are left, not on the pieces they arrive in
(`fill_steady`), and of the bytes it takes one frame. So a list of frames is read back frame by
frame, by induction on the list, and what is cut off is noticed in the length or in the body. -/
namespace Iii.Shell
open Lib
open Iii.Worker (Byte bigEndian fromBigEndian length_bigEndian fromBigEndian_bigEndian)

/-! ### Reading from a source that does not fail -/

namespace Reader
variable {reader : Reader}

theorem bytes_cons (event : ReadEvent) (reader : Reader) :
    Reader.bytes (event :: reader) = event.bytes ++ reader.bytes := rfl

theorem steps_cons (event : ReadEvent) (reader : Reader) :
    Reader.steps (event :: reader) = event.bytes.length + 1 + reader.steps := rfl

theorem Steady.tail {event : ReadEvent} (h : Reader.Steady (event :: reader)) : reader.Steady :=
  fun error hmem => h error (List.mem_cons_of_mem _ hmem)

/-- One read: the source is at its end, it was interrupted, or it gives some of its bytes. -/
theorem read_steady (h : reader.Steady) {size : Nat} (hsize : 0 < size) :
    (reader = [] ∧ reader.read size = (.ok [], [])) ∨
    ∃ result reader', reader.read size = (result, reader') ∧ reader'.Steady ∧ reader'.steps < reader.steps ∧
      ((result = .interrupted ∧ reader'.bytes = reader.bytes) ∨
      ∃ bytes, result = .ok bytes ∧ bytes ≠ [] ∧ bytes.length ≤ size ∧ reader.bytes = bytes ++ reader'.bytes) := by
  cases reader with
  | nil => exact .inl ⟨rfl, rfl⟩
  | cons event reader =>
    refine .inr ?_
    cases event with
    | interrupted =>
      refine ⟨.interrupted, reader, rfl, h.tail, ?_, .inl ⟨rfl, rfl⟩⟩
      rw [steps_cons]
      omega
    | failed error => exact absurd List.mem_cons_self (h error)
    | chunk first rest =>
      have hsplit := List.take_append_drop size (first :: rest)
      cases hleft : (first :: rest).drop size with
      | nil =>
        refine ⟨.ok (first :: rest), reader, by simp only [Reader.read, hleft], h.tail, ?_,
          .inr ⟨_, rfl, List.cons_ne_nil _ _, List.drop_eq_nil_iff.mp hleft, rfl⟩⟩
        rw [steps_cons]
        omega
      | cons first' rest' =>
        have hlength := congrArg List.length hleft
        rw [List.length_drop, List.length_cons] at hlength
        refine ⟨.ok ((first :: rest).take size), .chunk first' rest' :: reader, by simp only [Reader.read, hleft],
          ?_, ?_, .inr ⟨_, rfl, ?_, List.length_take_le _ _, ?_⟩⟩
        · intro error hmem
          rcases List.mem_cons.mp hmem with hmem | hmem
          · cases hmem
          · exact h.tail error hmem
        · rw [steps_cons, steps_cons]
          simp only [ReadEvent.bytes, List.length_cons] at hlength ⊢
          omega
        · intro hnil
          have := congrArg List.length hnil
          simp only [List.length_take, List.length_cons, List.length_nil] at this
          omega
        · rw [hleft] at hsplit
          rw [bytes_cons, bytes_cons, ← List.append_assoc]
          exact congrArg (· ++ Reader.bytes reader) hsplit.symm

end Reader

theorem offered_pos (ask : Nat → Nat) (missing : Nat) : 0 < offered ask missing := by
  unfold offered
  omega

theorem offered_le {ask : Nat → Nat} {missing : Nat} (h : 0 < missing) : offered ask missing ≤ missing := by
  unfold offered
  omega

/-- Whatever the pieces are and however much is asked for, a fill takes the next bytes, as many
as are missing. -/
theorem fill_steady (ask : Nat → Nat) (size : Nat) (got : List Byte) {rounds : Nat} {reader : Reader}
    (h : reader.Steady) (hrounds : reader.steps ≤ rounds) (hgot : got.length ≤ size) :
    ∃ reader', fill ask size rounds got reader = (.ok (got ++ reader.bytes.take (size - got.length)), reader') ∧
      reader'.bytes = reader.bytes.drop (size - got.length) ∧ reader'.Steady := by
  induction rounds generalizing got reader with
  | zero =>
    cases reader with
    | nil => exact ⟨[], by simp [fill, Reader.bytes], by simp [Reader.bytes], h⟩
    | cons event reader =>
      rw [Reader.steps_cons] at hrounds
      omega
  | succ rounds ih =>
    by_cases hless : got.length < size
    · have hmissing : 0 < size - got.length := by omega
      rw [fill, if_pos hless]
      rcases Reader.read_steady h (offered_pos ask (size - got.length)) with
        ⟨rfl, hread⟩ | ⟨result, reader', hread, hsteady, hsteps, hcase⟩
      · rw [hread]
        exact ⟨[], by simp [Reader.bytes], by simp [Reader.bytes], h⟩
      · rw [hread]
        rcases hcase with ⟨rfl, hbytes⟩ | ⟨bytes, rfl, hne, hle, hbytes⟩
        · rw [← hbytes]
          exact ih _ hsteady (by omega) hgot
        · obtain ⟨b, rest, rfl⟩ := List.exists_cons_of_ne_nil hne
          have hfit : (b :: rest).length ≤ size - got.length := hle.trans (offered_le hmissing)
          have hgot' : (got ++ b :: rest).length ≤ size := by
            rw [List.length_append]
            omega
          obtain ⟨reader'', hfill, hbytes', hsteady'⟩ := ih _ hsteady (by omega) hgot'
          refine ⟨reader'', ?_, ?_, hsteady'⟩
          · show fill ask size rounds (got ++ b :: rest) reader' = _
            rw [hfill, hbytes, List.take_append, List.take_of_length_le hfit, List.length_append, Nat.sub_sub,
              List.append_assoc]
          · rw [hbytes', hbytes, List.drop_append, List.drop_of_length_le hfit, List.length_append, Nat.sub_sub,
              List.nil_append]
    · refine ⟨reader, ?_, ?_, h⟩
      · rw [fill, if_neg hless, Nat.sub_eq_zero_of_le (by omega), List.take_zero, List.append_nil]
      · rw [Nat.sub_eq_zero_of_le (by omega), List.drop_zero]

/-! ### One frame -/

/-- A frame with its length. -/
def frameBytes (corrId : UInt32) (flags : Byte) (payload : List Byte) : List Byte :=
  bigEndian 4 (frameHeaderSize + payload.length) ++ (bigEndian 4 corrId.toNat ++ flags :: payload)

theorem framePayload_eq_ok {buf payload out : List Byte} {corrId : UInt32} {flags : Byte} :
    framePayload buf corrId flags payload = .ok out ↔
      frameHeaderSize + payload.length ≤ maxFrameSize ∧ out = buf ++ frameBytes corrId flags payload := by
  unfold framePayload
  by_cases hfits : frameHeaderSize + payload.length > maxFrameSize
  · simp only [if_pos hfits]
    exact ⟨(fun h => nomatch h), fun h => absurd h.1 (by omega)⟩
  · simp only [if_neg hfits, Except.ok.injEq]
    have hbytes : buf ++ bigEndian 4 (frameHeaderSize + payload.length) ++ bigEndian 4 corrId.toNat ++ [flags] ++
        payload = buf ++ frameBytes corrId flags payload := by
      simp [frameBytes]
    rw [hbytes]
    exact ⟨fun h => ⟨by omega, h.symm⟩, fun h => h.2.symm⟩

section Frame
variable {M : Type} {serde : Serde M} {ask : Nat → Nat} {corrId : UInt32} {flags : Byte} {payload : List Byte} {msg : M}
  {reader : Reader}

theorem encodeFrameInto_eq_ok {buf out : List Byte} : encodeFrameInto serde buf corrId flags msg = .ok out ↔
    ∃ payload, serde.toVec msg = .ok payload ∧ frameHeaderSize + payload.length ≤ maxFrameSize ∧
      out = buf ++ frameBytes corrId flags payload := by
  rw [encodeFrameInto, bind_eq_ok]
  constructor
  · rintro ⟨payload, hpayload, h⟩
    refine ⟨payload, ?_, framePayload_eq_ok.mp h⟩
    cases hvec : serde.toVec msg with
    | error e =>
      rw [hvec] at hpayload
      cases hpayload
    | ok payload' =>
      rw [hvec] at hpayload
      exact congrArg Except.ok (Except.ok.inj hpayload)
  · rintro ⟨payload, hpayload, h⟩
    exact ⟨payload, by rw [hpayload]; rfl, framePayload_eq_ok.mpr h⟩

theorem decodeFrameBody_frame (hread : serde.fromSlice payload = .ok msg) :
    decodeFrameBody serde (bigEndian 4 corrId.toNat ++ flags :: payload) = .ok (corrId, flags, msg) := by
  have hlength : (bigEndian 4 corrId.toNat).length = 4 := length_bigEndian 4 _
  have hcorr : (bigEndian 4 corrId.toNat ++ flags :: payload).take 4 = bigEndian 4 corrId.toNat :=
    List.take_left' hlength
  have hpayload : (bigEndian 4 corrId.toNat ++ flags :: payload).drop frameHeaderSize = payload := by
    show (bigEndian 4 corrId.toNat ++ flags :: payload).drop (4 + 1) = payload
    rw [← List.drop_drop, List.drop_left' hlength]
    rfl
  have hflags : (bigEndian 4 corrId.toNat ++ flags :: payload).getD 4 0 = flags := by
    simp [List.getD_eq_getElem?_getD, hlength]
  have hlong : ¬ (bigEndian 4 corrId.toNat ++ flags :: payload).length < frameHeaderSize := by
    rw [List.length_append, hlength, List.length_cons, frameHeaderSize]
    omega
  rw [decodeFrameBody, if_neg hlong, hpayload, hread, hcorr, hflags,
    fromBigEndian_bigEndian 4 _ corrId.toNat_lt, UInt32.ofNat_toNat]
  rfl

/-- The length that an encoder writes is read back, and accepted. -/
theorem validateFrameLen_frame (hfits : frameHeaderSize + payload.length ≤ maxFrameSize) :
    validateFrameLen (UInt32.ofNat (fromBigEndian (bigEndian 4 (frameHeaderSize + payload.length)))) =
      .ok (frameHeaderSize + payload.length) := by
  have hsmall : frameHeaderSize + payload.length < 2 ^ 32 := by
    unfold maxFrameSize at hfits
    omega
  have hnat : (UInt32.ofNat (frameHeaderSize + payload.length)).toNat = frameHeaderSize + payload.length :=
    UInt32.toNat_ofNat_of_lt' hsmall
  rw [fromBigEndian_bigEndian 4 _ hsmall, validateFrameLen, hnat]
  exact if_pos ⟨Nat.le_add_right _ _, hfits⟩

theorem readFull_steady (h : reader.Steady) (size : Nat) :
    ∃ reader', readFull size reader =
      (.ok (if reader.bytes.length < size then
        (if reader.bytes.length = 0 then .eofAtBoundary else .partialRead) else .full,
        reader.bytes.take size), reader') ∧
      reader'.bytes = reader.bytes.drop size ∧ reader'.Steady := by
  obtain ⟨reader', hfill, hbytes, hsteady⟩ :=
    fill_steady id size [] h le_rfl (Nat.zero_le size)
  rw [List.nil_append, List.length_nil, Nat.sub_zero] at hfill
  refine ⟨reader', ?_, hbytes, hsteady⟩
  rw [readFull, hfill]
  by_cases hless : reader.bytes.length < size
  · have hshort : reader.bytes.take size = reader.bytes := List.take_of_length_le (by omega)
    simp only [hshort, if_pos hless]
  · have hlong : (reader.bytes.take size).length = size := by
      rw [List.length_take]
      omega
    simp only [hlong, lt_irrefl, if_neg hless, if_false]

/-- At the end of the bytes there is no frame. -/
theorem readFrameBlocking_end (serde : Serde M) (ask : Nat → Nat) (h : reader.Steady) (hbytes : reader.bytes = []) :
    ∃ reader', readFrameBlocking serde ask reader = (.ok none, reader') ∧ reader'.bytes = [] ∧ reader'.Steady := by
  obtain ⟨reader', hfull, hbytes', hsteady⟩ := readFull_steady h 4
  rw [hbytes] at hfull hbytes'
  exact ⟨reader', by rw [readFrameBlocking, hfull]; rfl, hbytes', hsteady⟩

/-- A whole frame is taken, and nothing after it. -/
theorem readFrameBlocking_frame (ask : Nat → Nat) (h : reader.Steady) (hread : serde.fromSlice payload = .ok msg)
    (hfits : frameHeaderSize + payload.length ≤ maxFrameSize) {rest : List Byte}
    (hbytes : reader.bytes = frameBytes corrId flags payload ++ rest) :
    ∃ reader', readFrameBlocking serde ask reader = (.ok (some (corrId, flags, msg)), reader') ∧
      reader'.bytes = rest ∧ reader'.Steady := by
  obtain ⟨reader₁, hfull, hbytes₁, hsteady₁⟩ := readFull_steady h 4
  have hlead : (bigEndian 4 (frameHeaderSize + payload.length)).length = 4 := length_bigEndian 4 _
  rw [hbytes, frameBytes, List.append_assoc] at hfull hbytes₁
  have hlong : ¬ (bigEndian 4 (frameHeaderSize + payload.length) ++
      (bigEndian 4 corrId.toNat ++ flags :: payload ++ rest)).length < 4 := by
    rw [List.length_append, hlead]
    omega
  rw [if_neg hlong, List.take_left' hlead] at hfull
  rw [List.drop_left' hlead] at hbytes₁
  obtain ⟨reader₂, hfill, hbytes₂, hsteady₂⟩ :=
    fill_steady ask (frameHeaderSize + payload.length) [] hsteady₁ le_rfl (Nat.zero_le _)
  have hbody : (bigEndian 4 corrId.toNat ++ flags :: payload).length = frameHeaderSize + payload.length := by
    rw [List.length_append, length_bigEndian, List.length_cons, frameHeaderSize]
    omega
  rw [List.nil_append, List.length_nil, Nat.sub_zero, hbytes₁, List.take_left' hbody] at hfill
  rw [List.length_nil, Nat.sub_zero, hbytes₁, List.drop_left' hbody] at hbytes₂
  refine ⟨reader₂, ?_, hbytes₂, hsteady₂⟩
  simp only [readFrameBlocking, hfull, validateFrameLen_frame hfits, hfill, hbody, ne_eq, not_true_eq_false,
    if_false, decodeFrameBody_frame hread]

/-- A frame that is cut is an error. -/
theorem readFrameBlocking_cut (serde : Serde M) (ask : Nat → Nat) (h : reader.Steady)
    (hfits : frameHeaderSize + payload.length ≤ maxFrameSize)
    (hne : reader.bytes ≠ []) (hcut : reader.bytes <+: frameBytes corrId flags payload)
    (hshort : reader.bytes ≠ frameBytes corrId flags payload) :
    ∃ error reader', readFrameBlocking serde ask reader = (.error error, reader') ∧ error.kind = .unexpectedEof := by
  obtain ⟨reader₁, hfull, hbytes₁, hsteady₁⟩ := readFull_steady h 4
  have hlead : (bigEndian 4 (frameHeaderSize + payload.length)).length = 4 := length_bigEndian 4 _
  have hbody : (bigEndian 4 corrId.toNat ++ flags :: payload).length = frameHeaderSize + payload.length := by
    rw [List.length_append, length_bigEndian, List.length_cons, frameHeaderSize]
    omega
  by_cases hless : reader.bytes.length < 4
  · rw [if_pos hless, if_neg (by simpa using hne)] at hfull
    exact ⟨_, reader₁, by rw [readFrameBlocking, hfull], rfl⟩
  · obtain ⟨missing, hmissing⟩ := hcut
    have htake : reader.bytes.take 4 = bigEndian 4 (frameHeaderSize + payload.length) := by
      have hfour : 4 ≤ reader.bytes.length := by omega
      calc reader.bytes.take 4 = (reader.bytes ++ missing).take 4 := (List.take_append_of_le_length hfour).symm
        _ = bigEndian 4 (frameHeaderSize + payload.length) := by rw [hmissing, frameBytes, List.take_left' hlead]
    have hlength := congrArg List.length hmissing
    rw [frameBytes, List.length_append, List.length_append, hlead, hbody] at hlength
    have hmissing_pos : 0 < missing.length := by
      rw [List.length_pos_iff]
      rintro rfl
      exact hshort (by rw [← hmissing, List.append_nil])
    rw [if_neg hless, htake] at hfull
    obtain ⟨reader₂, hfill, -, -⟩ :=
      fill_steady ask (frameHeaderSize + payload.length) [] hsteady₁ le_rfl (Nat.zero_le _)
    rw [List.nil_append, List.length_nil, Nat.sub_zero] at hfill
    have hrest : (reader₁.bytes.take (frameHeaderSize + payload.length)).length ≠ frameHeaderSize + payload.length := by
      rw [hbytes₁, List.length_take, List.length_drop]
      omega
    refine ⟨⟨.unexpectedEof, "partial frame body"⟩, reader₂, ?_, rfl⟩
    simp only [readFrameBlocking, hfull, validateFrameLen_frame hfits, hfill, ne_eq, hrest, not_false_eq_true, if_true]

end Frame

/-! ### A list of frames -/

section Frames
variable {M : Type} {serde : Serde M} {ask : Nat → Nat} {reader : Reader} {frames : List (UInt32 × Byte × M)}
  {bytes : List Byte}

theorem encodeFrames_from {buf out : List Byte} :
    frames.foldlM (fun buf frame => encodeFrameInto serde buf frame.1 frame.2.1 frame.2.2) buf = .ok out ↔
      ∃ tail, encodeFrames serde frames = .ok tail ∧ out = buf ++ tail := by
  unfold encodeFrames
  induction frames generalizing buf out with
  | nil =>
    simp only [List.foldlM_nil]
    constructor
    · intro h
      cases h
      exact ⟨[], rfl, (List.append_nil buf).symm⟩
    · rintro ⟨tail, h, rfl⟩
      cases h
      exact congrArg Except.ok (List.append_nil buf).symm
  | cons frame rest ih =>
    simp only [List.foldlM_cons, bind_eq_ok, encodeFrameInto_eq_ok]
    constructor
    · rintro ⟨_, ⟨payload, hvec, hfits, rfl⟩, h⟩
      obtain ⟨tail, htail, rfl⟩ := ih.mp h
      refine ⟨_, ⟨_, ⟨payload, hvec, hfits, rfl⟩, ih.mpr ⟨tail, htail, rfl⟩⟩, ?_⟩
      rw [List.append_assoc, List.nil_append]
    · rintro ⟨tail, ⟨_, ⟨payload, hvec, hfits, rfl⟩, h⟩, rfl⟩
      obtain ⟨tail', htail, rfl⟩ := ih.mp h
      refine ⟨_, ⟨payload, hvec, hfits, rfl⟩, ih.mpr ⟨tail', htail, ?_⟩⟩
      rw [List.nil_append, List.append_assoc]

theorem encodeFrames_cons {frame : UInt32 × Byte × M} : encodeFrames serde (frame :: frames) = .ok bytes ↔
    ∃ payload tail, serde.toVec frame.2.2 = .ok payload ∧ frameHeaderSize + payload.length ≤ maxFrameSize ∧
      encodeFrames serde frames = .ok tail ∧ bytes = frameBytes frame.1 frame.2.1 payload ++ tail := by
  have hfrom : encodeFrames serde (frame :: frames) = (encodeFrameInto serde [] frame.1 frame.2.1 frame.2.2 >>=
      fun buf => frames.foldlM (fun buf frame => encodeFrameInto serde buf frame.1 frame.2.1 frame.2.2) buf) := rfl
  rw [hfrom, bind_eq_ok]
  simp only [encodeFrameInto_eq_ok, encodeFrames_from, List.nil_append]
  constructor
  · rintro ⟨_, ⟨payload, hvec, hfits, rfl⟩, tail, htail, rfl⟩
    exact ⟨payload, tail, hvec, hfits, htail, rfl⟩
  · rintro ⟨payload, tail, hvec, hfits, htail, rfl⟩
    exact ⟨_, ⟨payload, hvec, hfits, rfl⟩, tail, htail, rfl⟩

theorem readFrames_end (h : reader.Steady) (hbytes : reader.bytes = []) (calls : Nat) :
    readFrames serde ask calls reader = List.replicate calls (.ok none) := by
  induction calls generalizing reader with
  | zero => rfl
  | succ calls ih =>
    obtain ⟨reader', hread, hbytes', hsteady⟩ := readFrameBlocking_end serde ask h hbytes
    rw [readFrames, hread, List.replicate_succ, ← ih hsteady hbytes']

/-- What is read of the bytes that arrived: `count` frames are whole in them, those are returned,
and then there is nothing more, or an error when bytes are left. -/
structure ReadBack (serde : Serde M) (ask : Nat → Nat) (frames : List (UInt32 × Byte × M)) (reader : Reader)
    (count : Nat) (whole : List Byte) : Prop where
  count_le : count ≤ frames.length
  encoded : encodeFrames serde (frames.take count) = .ok whole
  arrived : whole <+: reader.bytes
  cut : count < frames.length → ∀ next, encodeFrames serde (frames.take (count + 1)) = .ok next →
    ¬ next <+: reader.bytes
  boundary : reader.bytes = whole → ∀ more, readFrames serde ask (count + more) reader =
    (frames.take count).map (fun frame => .ok (some frame)) ++ List.replicate more (.ok none)
  elsewhere : reader.bytes ≠ whole → ∃ error : IoError, error.kind = .unexpectedEof ∧
    readFrames serde ask (count + 1) reader =
      (frames.take count).map (fun frame => .ok (some frame)) ++ [.error error]

/-- The first frame is whole: it is returned, and the rest is read from what is left. -/
theorem ReadBack.cons {frame : UInt32 × Byte × M} {payload : List Byte} {reader' : Reader} {count : Nat}
    {whole : List Byte} (h : ReadBack serde ask frames reader' count whole)
    (hvec : serde.toVec frame.2.2 = .ok payload) (hfits : frameHeaderSize + payload.length ≤ maxFrameSize)
    (hread : readFrameBlocking serde ask reader = (.ok (some frame), reader'))
    (hbytes : reader.bytes = frameBytes frame.1 frame.2.1 payload ++ reader'.bytes) :
    ReadBack serde ask (frame :: frames) reader (count + 1) (frameBytes frame.1 frame.2.1 payload ++ whole) where
  count_le := Nat.succ_le_succ h.count_le
  encoded := encodeFrames_cons.mpr ⟨payload, whole, hvec, hfits, h.encoded, rfl⟩
  arrived := by
    rw [hbytes, List.prefix_append_right_inj]
    exact h.arrived
  cut hlt next hnext hlead := by
    obtain ⟨payload', tail, hvec', -, htail, rfl⟩ := encodeFrames_cons.mp hnext
    rw [hvec] at hvec'
    cases hvec'
    rw [hbytes, List.prefix_append_right_inj] at hlead
    exact h.cut (Nat.lt_of_succ_lt_succ hlt) tail htail hlead
  boundary heq more := by
    have heq' : reader'.bytes = whole := by
      rw [hbytes] at heq
      exact List.append_cancel_left heq
    rw [Nat.add_right_comm, readFrames, hread]
    exact congrArg (_ :: ·) (h.boundary heq' more)
  elsewhere hne := by
    have hne' : reader'.bytes ≠ whole := by
      rintro heq
      exact hne (by rw [hbytes, heq])
    obtain ⟨error, hkind, hframes⟩ := h.elsewhere hne'
    refine ⟨error, hkind, ?_⟩
    rw [readFrames, hread]
    exact congrArg (_ :: ·) hframes

/-- The first frame is not whole: either nothing arrived, or it is cut. -/
theorem ReadBack.none {frame : UInt32 × Byte × M} {payload : List Byte} (h : reader.Steady)
    (hvec : serde.toVec frame.2.2 = .ok payload) (hfits : frameHeaderSize + payload.length ≤ maxFrameSize)
    (hlead : reader.bytes <+: frameBytes frame.1 frame.2.1 payload)
    (hcut : ¬ frameBytes frame.1 frame.2.1 payload <+: reader.bytes) :
    ReadBack serde ask (frame :: frames) reader 0 [] where
  count_le := Nat.zero_le _
  encoded := rfl
  arrived := List.nil_prefix
  cut _ next hnext hnextPrefix := by
    obtain ⟨payload', tail, hvec', -, -, rfl⟩ := encodeFrames_cons.mp hnext
    rw [hvec] at hvec'
    cases hvec'
    exact hcut ((List.prefix_append _ _).trans hnextPrefix)
  boundary heq more := by
    rw [Nat.zero_add]
    exact readFrames_end h heq more
  elsewhere hne := by
    have hshort : reader.bytes ≠ frameBytes frame.1 frame.2.1 payload := fun heq => hcut (heq ▸ List.prefix_rfl)
    obtain ⟨error, reader', hread, hkind⟩ :=
      readFrameBlocking_cut serde ask h hfits hne hlead hshort
    refine ⟨error, hkind, ?_⟩
    rw [readFrames, hread]
    rfl

theorem readFrames_prefix (ask : Nat → Nat)
    (hjson : ∀ msg payload, serde.toVec msg = .ok payload → serde.fromSlice payload = .ok msg)
    (hencode : encodeFrames serde frames = .ok bytes) (h : reader.Steady) (hlead : reader.bytes <+: bytes) :
    ∃ count whole, ReadBack serde ask frames reader count whole := by
  induction frames generalizing bytes reader with
  | nil =>
    cases hencode
    have hnil := List.prefix_nil.mp hlead
    refine ⟨0, [], Nat.le_refl _, rfl, List.nil_prefix, (fun hlt => absurd hlt (Nat.lt_irrefl _)), ?_, ?_⟩
    · intro _ more
      rw [Nat.zero_add]
      exact readFrames_end h hnil more
    · exact fun hne => absurd hnil hne
  | cons frame frames ih =>
    obtain ⟨payload, tail, hvec, hfits, htail, rfl⟩ := encodeFrames_cons.mp hencode
    by_cases hwhole : frameBytes frame.1 frame.2.1 payload <+: reader.bytes
    · obtain ⟨rest, hrest⟩ := hwhole
      obtain ⟨reader', hread, hbytes', hsteady⟩ := readFrameBlocking_frame ask h
        (hjson _ _ hvec) hfits hrest.symm
      rw [← hrest, List.prefix_append_right_inj, ← hbytes'] at hlead
      obtain ⟨count, whole, hback⟩ := ih htail hsteady hlead
      exact ⟨count + 1, _, hback.cons hvec hfits hread (by rw [hbytes', hrest])⟩
    · have hinside : reader.bytes <+: frameBytes frame.1 frame.2.1 payload := by
        rcases List.prefix_or_prefix_of_prefix hlead (List.prefix_append _ tail) with hinside | hover
        · exact hinside
        · exact absurd hover hwhole
      exact ⟨0, [], .none h hvec hfits hinside hwhole⟩

/-- All of them arrived. -/
theorem ReadBack.all {count : Nat} {whole : List Byte} (h : ReadBack serde ask frames reader count whole)
    (hencode : encodeFrames serde frames = .ok reader.bytes) : count = frames.length ∧ reader.bytes = whole := by
  have hcount : count = frames.length := by
    by_contra hne
    -- Otherwise the next frame did not arrive, and it is a prefix of what was sent.
    have hlt : count < frames.length := lt_of_le_of_ne h.count_le hne
    have hsplit : frames = frames.take (count + 1) ++ frames.drop (count + 1) := (List.take_append_drop _ _).symm
    rw [hsplit, encodeFrames, List.foldlM_append, bind_eq_ok] at hencode
    obtain ⟨next, hnext, hrest⟩ := hencode
    obtain ⟨tail, -, hbytes⟩ := encodeFrames_from.mp hrest
    exact h.cut hlt next hnext ⟨tail, hbytes.symm⟩
  refine ⟨hcount, ?_⟩
  have hencoded := h.encoded
  rw [hcount, List.take_length, hencode] at hencoded
  exact Except.ok.inj hencoded

/-- The length limit of the reader is that of the writer. -/
theorem validateFrameLen_iff (frameLen : UInt32) : (∃ len, validateFrameLen frameLen = .ok len) ↔
    ∃ payload, ∀ buf corrId flags, ∃ rest,
      framePayload buf corrId flags payload = .ok (buf ++ (bigEndian 4 frameLen.toNat ++ rest)) := by
  constructor
  · rintro ⟨len, hvalid⟩
    have hrange : frameHeaderSize ≤ frameLen.toNat ∧ frameLen.toNat ≤ maxFrameSize := by
      by_contra hout
      rw [validateFrameLen, if_neg hout] at hvalid
      cases hvalid
    have hlength : frameHeaderSize + (List.replicate (frameLen.toNat - frameHeaderSize) (0 : Byte)).length =
        frameLen.toNat := by
      rw [List.length_replicate]
      omega
    refine ⟨List.replicate (frameLen.toNat - frameHeaderSize) 0, fun buf corrId flags =>
      ⟨bigEndian 4 corrId.toNat ++ flags :: List.replicate (frameLen.toNat - frameHeaderSize) 0, ?_⟩⟩
    rw [framePayload_eq_ok, hlength]
    exact ⟨hrange.2, by rw [frameBytes, hlength]⟩
  · rintro ⟨payload, hencode⟩
    obtain ⟨rest, hframe⟩ := hencode [] 0 0
    obtain ⟨hfits, hbytes⟩ := framePayload_eq_ok.mp hframe
    rw [List.nil_append, List.nil_append, frameBytes] at hbytes
    have hhead := (List.append_inj hbytes (by rw [length_bigEndian, length_bigEndian])).1
    have hsmall : frameHeaderSize + payload.length < 256 ^ 4 := by
      unfold maxFrameSize at hfits
      omega
    have hlen : frameLen.toNat = frameHeaderSize + payload.length := by
      rw [← fromBigEndian_bigEndian 4 frameLen.toNat frameLen.toNat_lt, hhead, fromBigEndian_bigEndian 4 _ hsmall]
    exact ⟨frameLen.toNat, if_pos ⟨by omega, by omega⟩⟩

/-- The frames come back, from all of the bytes and from any first part of them. -/
theorem frames_read_back
    (hjson : ∀ (msg : M) payload, serde.toVec msg = .ok payload → serde.fromSlice payload = .ok msg) :
    (∀ (frames : List (UInt32 × Byte × M)) bytes, encodeFrames serde frames = .ok bytes → ∀ ask (reader : Reader),
      reader.Steady →
      (reader.bytes = bytes → ∀ more, readFrames serde ask (frames.length + more) reader =
        frames.map (fun frame => .ok (some frame)) ++ List.replicate more (.ok none)) ∧
      (reader.bytes <+: bytes → ∃ count whole, ReadBack serde ask frames reader count whole)) ∧
    ∀ frameLen : UInt32, (∃ len, validateFrameLen frameLen = .ok len) ↔
      ∃ payload, ∀ buf corrId flags, ∃ rest,
        framePayload buf corrId flags payload = .ok (buf ++ (bigEndian 4 frameLen.toNat ++ rest)) := by
  refine ⟨fun frames bytes hencode ask reader h => ⟨?_, readFrames_prefix ask hjson hencode h⟩, validateFrameLen_iff⟩
  rintro rfl more
  obtain ⟨count, whole, hback⟩ := readFrames_prefix ask hjson hencode h List.prefix_rfl
  obtain ⟨rfl, heq⟩ := hback.all hencode
  rw [hback.boundary heq more, List.take_length]

end Frames

/-! ### One message, in pieces -/

/-- `Exited { code: 0 }`, which is the one message here. -/
def exitedText : List Byte := "\x7b\"t\":\"exited\",\"code\":0\x7d".toList.map fun c => UInt8.ofNat c.toNat

def exitedSerde : Serde Unit where
  toVec _ := .ok exitedText
  fromSlice bytes := if bytes = exitedText then .ok () else .error "expected value at line 1 column 1"

theorem frames_read_back_exited : readFrames exitedSerde id 3
    [.chunk 0 [0], .interrupted, .chunk 0 [28, 0, 0], .interrupted, .chunk 0 (7 :: 1 :: exitedText.take 10),
      .chunk 0x65 (exitedText.drop 11)] = [.ok (some (7, 1, ())), .ok none, .ok none] := by
  have hencode : encodeFrames exitedSerde [(7, 1, ())] = .ok (frameBytes 7 1 exitedText) := by rfl
  have hjson : ∀ msg payload, exitedSerde.toVec msg = .ok payload → exitedSerde.fromSlice payload = .ok msg := by
    intro msg payload hvec
    cases hvec
    rfl
  refine ((frames_read_back hjson).1 [(7, 1, ())] _ hencode id _ ?_).1 ?_ 2
  · intro error hmem
    simp at hmem
  · rfl

end Iii.Shell
