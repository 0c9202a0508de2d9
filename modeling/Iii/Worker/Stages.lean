import Iii.Worker.Edges

/-! Where the reader is in a frame.

`Between` relates the message of the reader to the open message of the frames read so far,
and `Inside` does so after `k` bytes of a frame. One lemma for each part of a frame says
how the reader gets on: its header starts it, its bytes move it on, its end does what
`accept` says. -/
namespace Iii.Worker

/-! ### Between frames and inside them -/

/-- The reader's message between two frames. -/
def Between (limit : Nat) : Option Open → Option MessageState → Prop
  | none, none => True
  | some m, some s => s.Holds limit 0 m
  | _, _ => False

/-- The message a data frame belongs to, before it. The reader starts one for a reserved
opcode too and notices only at the end of the frame. -/
def opened : Data → Option Open → Option Open
  | .continue, m => m
  | _, some _ => none
  | data, none => some { text := decide (data = .text), payload := [] }

/-- `m` with more payload. -/
def Open.extend (m : Open) (bytes : List Byte) : Open := { m with payload := m.payload ++ bytes }

theorem joined_eq (f : Frame) (data : Data) (m : Option Open)
    (h : (OpCode.data data).isReserved = false) :
    joined f data m = (opened data m).map fun o => o.extend f.payload := by
  cases data with
  | reserved code => cases h
  | «continue» => cases m <;> rfl
  | text => cases m <;> rfl
  | binary => cases m <;> rfl

theorem joined_opened_none (f : Frame) (data : Data) (m : Option Open) (h : opened data m = none) :
    joined f data m = none := by
  cases data <;> cases m <;> first | rfl | cases h

/-- The frame the reader is in after `k` bytes of `f`. -/
def started (f : Frame) (mask : Mask) (k : Nat) : FrameState where
  opcode := f.header.opcode
  isFinal := f.header.isFinal
  mask := mask
  len := f.payload.length
  read := k
  control := match f.header.opcode with
    | .control _ => f.payload.take k
    | .data _ => []

/-- What the header of a started frame was checked for. -/
structure Admitted (f : Frame) (mask : Mask) : Prop where
  rsv : (f.header.rsv1 || f.header.rsv2 || f.header.rsv3) = false
  mask : f.header.mask = some mask
  control : ∀ c, f.header.opcode = .control c →
    f.header.isFinal = true ∧ f.payload.length ≤ maxControlPayload

/-- The reader's message after `k` bytes of `f`. -/
def Carries (limit : Nat) (f : Frame) (k : Nat) (m : Option Open) (s : Option MessageState) : Prop :=
  match f.header.opcode with
  | .control _ => Between limit m s
  | .data data => ∃ o t, opened data m = some o ∧ s = some t ∧
      t.Holds limit (f.payload.length - k) (o.extend (f.payload.take k))

theorem Admitted.body_eq {f : Frame} {mask : Mask} (h : Admitted f mask) :
    f.body = masked mask 0 f.payload := by
  rw [Frame.body, h.mask]

/-! ### The header -/

variable {s : Option MessageState} {m : Option Open}

theorem messageOf_cases {limit : Nat} (data : Data) (h : Between limit m s) :
    (∃ o t, opened data m = some o ∧ messageOf data s = .ok t ∧ t.Holds limit 0 o) ∨
      (opened data m = none ∧ ∃ e, messageOf data s = .error (.protocol e)) := by
  cases m with
  | none =>
    cases s with
    | some t => cases h
    | none =>
      cases data with
      | «continue» => exact .inr ⟨rfl, _, rfl⟩
      | text => exact .inl ⟨_, _, rfl, rfl, .start limit true⟩
      | binary => exact .inl ⟨_, _, rfl, rfl, .start limit false⟩
      | reserved code => exact .inl ⟨_, _, rfl, rfl, .start limit false⟩
  | some o =>
    cases s with
    | none => cases h
    | some t =>
      cases data with
      | «continue» => exact .inl ⟨o, t, rfl, rfl, h⟩
      | text => exact .inr ⟨rfl, _, rfl⟩
      | binary => exact .inr ⟨rfl, _, rfl⟩
      | reserved code => exact .inr ⟨rfl, _, rfl⟩

/-- A frame that is started is in order so far; one that is not breaks a rule. -/
theorem startFrame_cases {limit : Nat} (f : Frame) (h : Between limit m s) :
    (∃ mask s', Admitted f mask ∧ Carries limit f 0 m s' ∧
        startFrame limit s f.header f.payload.length = .ok (started f mask 0, s')) ∨
      (accept limit m f = none ∧
        ∃ e, startFrame limit s f.header f.payload.length = .error (.protocol e)) := by
  unfold startFrame accept
  cases hrsv : (f.header.rsv1 || f.header.rsv2 || f.header.rsv3) with
  | true => exact .inr ⟨by simp, _, rfl⟩
  | false =>
    cases hmask : f.header.mask with
    | none => exact .inr ⟨by simp, _, rfl⟩
    | some mask =>
      cases hop : f.header.opcode with
      | control c =>
        cases hfinal : f.header.isFinal with
        | false => exact .inr ⟨by simp, _, rfl⟩
        | true =>
          by_cases hlen : maxControlPayload < f.payload.length
          · exact .inr ⟨by simp [hlen], .controlFrameTooBig, by simp [hlen]⟩
          · refine .inl ⟨mask, s, ⟨hrsv, hmask, fun _ _ => ⟨hfinal, by omega⟩⟩, ?_, ?_⟩
            · simpa only [Carries, hop] using h
            · simp [hlen, started, hop, hfinal]
      | data d =>
        rcases messageOf_cases d h with ⟨o, t, ho, ht, hholds⟩ | ⟨ho, e, he⟩
        · refine .inl ⟨mask, some (t.grow limit f.payload.length), ⟨hrsv, hmask, ?_⟩, ?_, ?_⟩
          · intro c hc
            rw [hop] at hc
            cases hc
          · simp only [Carries, hop]
            refine ⟨o, _, ho, rfl, ?_⟩
            simpa [Open.extend] using hholds.grow f.payload.length
          · simp [ht, started, hop]
        · exact .inr ⟨by simp [joined_opened_none f d m ho], e, by simp [he]⟩

/-! ### The payload -/

/-- The next bytes of a frame, in order and still masked, move the reader on. -/
theorem consume_eq {limit k : Nat} {f : Frame} (mask : Mask) (plain : List Byte) (h : Carries limit f k m s)
    (hplain : plain = (f.payload.drop k).take plain.length) (hk : k + plain.length ≤ f.payload.length) :
    ∃ s', consume (started f mask k) s (masked mask k plain) =
        some (started f mask (k + plain.length), s') ∧ Carries limit f (k + plain.length) m s' := by
  have htake : f.payload.take (k + plain.length) = f.payload.take k ++ plain := by
    rw [List.take_add, ← hplain]
  unfold Carries at h ⊢
  cases hop : f.header.opcode with
  | control c =>
    simp only [hop] at h ⊢
    refine ⟨s, ?_, h⟩
    simp [consume, started, hop, unmask_masked, htake]
  | data d =>
    simp only [hop] at h ⊢
    obtain ⟨o, t, ho, rfl, htext, hsize, hbody⟩ := h
    have hextend : o.extend (f.payload.take (k + plain.length)) =
        (o.extend (f.payload.take k)).extend plain := by
      simp [Open.extend, htake]
    have hcount : min ((o.extend (f.payload.take (k + plain.length))).payload.length
          + (f.payload.length - (k + plain.length))) maxU64 = t.size := by
      rw [hsize]
      simp only [Open.extend, List.length_append, List.length_take]
      congr 1
      omega
    refine ⟨some { t with body := t.body.consume (started f mask k) (masked mask k plain) }, ?_, ?_⟩
    · simp [consume, started, hop]
    · refine ⟨o, _, ho, rfl, by rw [hextend]; exact htext, hcount.symm, ?_⟩
      rw [hextend]
      cases hb : t.body with
      | kept data =>
        rw [hb] at hbody
        obtain ⟨hunder, rfl⟩ := hbody
        refine ⟨hunder, ?_⟩
        exact congrArg _ (unmask_masked mask k plain)
      | skipped head tail =>
        rw [hb] at hbody
        exact consumeSkipped_holds (started f mask k) k plain _ head tail hk hbody

/-! ### The end -/

theorem closeFrame_eq (payload : List Byte) :
    closeFrame payload = match closePayload payload with
      | some close => .ok close
      | none => .error (if payload.length = 1 then .protocol .invalidCloseSequence else .utf8) := by
  match payload with
  | [] => rfl
  | [_] => rfl
  | hi :: lo :: reason =>
    simp only [closeFrame, closePayload]
    cases utf8 reason <;> simp

/-- At its end a frame does what `accept` says. -/
theorem finishFrame_cases {limit : Nat} {f : Frame} {mask : Mask} (ha : Admitted f mask)
    (h : Carries limit f f.payload.length m s) :
    (∃ i m' s', accept limit m f = some (i, m') ∧
        finishFrame (started f mask f.payload.length) s = .ok (i, s') ∧ Between limit m' s') ∨
      (accept limit m f = none ∧ ∃ e, e ≠ .unreachable ∧
        finishFrame (started f mask f.payload.length) s = .error e) := by
  unfold accept
  unfold Carries at h
  cases hop : f.header.opcode with
  | control c =>
    simp only [hop] at h
    obtain ⟨hfinal, hlen⟩ := ha.control c hop
    have hlen' : ¬ maxControlPayload < f.payload.length := by omega
    cases c with
    | ping =>
      refine .inl ⟨some (.message (.ping f.payload)), m, s, ?_, ?_, h⟩
      · simp [ha.rsv, ha.mask, hfinal, hlen', controlMessage]
      · simp [finishFrame, started, hop]
    | pong =>
      refine .inl ⟨some (.message (.pong f.payload)), m, s, ?_, ?_, h⟩
      · simp [ha.rsv, ha.mask, hfinal, hlen', controlMessage]
      · simp [finishFrame, started, hop]
    | close =>
      cases hclose : closePayload f.payload with
      | some close =>
        refine .inl ⟨some (.message (.close close)), m, s, ?_, ?_, h⟩
        · simp [ha.rsv, ha.mask, hfinal, hlen', controlMessage, hclose]
        · simp [finishFrame, started, hop, closeFrame_eq, hclose]
      | none =>
        refine .inr ⟨?_, if f.payload.length = 1 then .protocol .invalidCloseSequence else .utf8, ?_, ?_⟩
        · simp [ha.rsv, ha.mask, hfinal, hlen', controlMessage, hclose]
        · split <;> simp
        · simp [finishFrame, started, hop, closeFrame_eq, hclose]
    | reserved code =>
      refine .inr ⟨?_, .protocol (.invalidOpcode f.header.opcode.code), by simp, ?_⟩
      · simp [ha.rsv, ha.mask, hfinal, hlen', controlMessage]
      · simp [finishFrame, started, hop]
  | data d =>
    simp only [hop] at h
    obtain ⟨o, t, ho, rfl, hholds⟩ := h
    rw [Nat.sub_self, List.take_length] at hholds
    cases hres : (OpCode.data d).isReserved with
    | true =>
      cases d with
      | reserved code =>
        refine .inr ⟨?_, .protocol (.invalidOpcode f.header.opcode.code), by simp, ?_⟩
        · simp [ha.rsv, ha.mask, joined]
        · simp [finishFrame, started, hop]
      | _ => cases hres
    | false =>
      have hfinish : finishFrame (started f mask f.payload.length) (some t) =
          if !f.header.isFinal then .ok (none, some t) else t.finish.map fun inbound => (some inbound, none) := by
        cases d with
        | reserved code => cases hres
        | _ =>
          simp only [finishFrame, started, hop]
          cases t.finish <;> rfl
      simp only [ha.rsv, ha.mask, joined_eq f d m hres, ho, hfinish]
      cases hfinal : f.header.isFinal with
      | false =>
        exact .inl ⟨none, some (o.extend f.payload), some t, by simp, by simp, hholds⟩
      | true =>
        rw [hholds.finish]
        cases hm : (o.extend f.payload).finish limit with
        | some inbound => exact .inl ⟨some inbound, none, none, by simp [hm], by simp [Except.map], trivial⟩
        | none => exact .inr ⟨by simp [hm], .utf8, by simp, by simp [Except.map]⟩

end Iii.Worker
