import Iii.Worker.Stages
import Iii.Worker.Header

/-! What the reader hands out.

However the bytes of a sequence of frames are split into reads, the calls of `next` come to
what `deliver` says of the frames: all that they complete, in order, and after it one
error if a rule is broken or the stream ends badly. `At` is where the reader is in the
frames, `advance` and the loop of `next` move it along, and `calls_eq` puts the calls
together. -/
namespace Iii.Worker

/-! ### Where the reader is -/

/-- The reader has `frames` before it, the first of them perhaps in part, and `bytes` of
them to read. -/
inductive At (r : Reader) (m : Option Open) : List Frame → List Byte → Prop where
  | between {frames : List Frame} (hframe : r.frame = none) (hm : Between r.limit m r.message) :
      At r m frames (wireOf frames)
  | inside {f : Frame} {frames : List Frame} {mask : Mask} {k : Nat} (ha : Admitted f mask)
      (hc : Carries r.limit f k m r.message) (hframe : r.frame = some (started f mask k))
      (hk : k < f.payload.length) : At r m (f :: frames) (f.body.drop k ++ wireOf frames)

theorem At.congr {r r' : Reader} {m : Option Open} {frames : List Frame} {bytes : List Byte}
    (h : At r m frames bytes) (hlimit : r'.limit = r.limit) (hframe : r'.frame = r.frame)
    (hmessage : r'.message = r.message) : At r' m frames bytes := by
  cases h with
  | between hnone hm => exact .between (hframe.trans hnone) (by rwa [hlimit, hmessage])
  | inside ha hc hsome hk => exact .inside ha (by rwa [hlimit, hmessage]) (hframe.trans hsome) hk

theorem accept_reserved (limit : Nat) (m : Option Open) (f : Frame)
    (h : f.header.opcode.isReserved = true) : accept limit m f = none := by
  unfold accept
  split
  · rfl
  · cases hop : f.header.opcode with
    | control c =>
      cases c with
      | reserved code => simp [controlMessage]
      | _ => rw [hop] at h; cases h
    | data d =>
      cases d with
      | reserved code => simp [joined]
      | _ => rw [hop] at h; cases h

theorem wireOf_cons (f : Frame) (frames : List Frame) :
    wireOf (f :: frames) = f.header.wire f.payload.length ++ (f.body ++ wireOf frames) := by
  simp [wireOf, Frame.wire]

/-- What the reader keeps while it moves along. -/
structure Reader.Moved (r r' : Reader) : Prop where
  limit : r'.limit = r.limit
  closed : r'.closed = r.closed
  ended : r'.ended = r.ended

theorem Reader.Moved.trans {r r' r'' : Reader} (h : r.Moved r') (h' : r'.Moved r'') : r.Moved r'' :=
  ⟨h'.limit.trans h.limit, h'.closed.trans h.closed, h'.ended.trans h.ended⟩

section
variable {parse : HeaderParser} {r : Reader} {m : Option Open} {frames : List Frame}
  {unread : List Byte}

/-- What `current` finds: no whole header, a frame that breaks a rule, or a frame to read on. -/
inductive Current (parse : HeaderParser) (r : Reader) (m : Option Open) (f : Frame)
    (frames : List Frame) (unread : List Byte) : Except Error (Option (FrameState × Reader)) → Prop where
  | waits (hframe : r.frame = none) (hparse : parse r.buffer = .ok none) :
      Current parse r m f frames unread (.ok none)
  | fails {e : Error} (he : e ≠ .unreachable) (haccept : accept r.limit m f = none)
      (hshort : frames = [] → unread.length < f.wire.length) :
      Current parse r m f frames unread (.error e)
  | reads {mask : Mask} {k : Nat} {r' : Reader} (ha : Admitted f mask)
      (hc : Carries r.limit f k m r'.message) (hk : k ≤ f.payload.length) (hmoved : r.Moved r')
      (hbytes : r'.buffer ++ unread = f.body.drop k ++ wireOf frames)
      (hprogress : r'.buffer.length + k < r.buffer.length + f.payload.length) :
      Current parse r m f frames unread (.ok (some (started f mask k, r')))

/-- A buffer holds a part of what comes first, or all of it. -/
theorem append_split {α : Type*} {buffer unread first rest : List α}
    (h : buffer ++ unread = first ++ rest) :
    (∃ missing, missing ≠ [] ∧ buffer ++ missing = first) ∨
      ∃ more, buffer = first ++ more ∧ more ++ unread = rest := by
  rcases List.append_eq_append_iff.mp h with ⟨missing, hfirst, hunread⟩ | ⟨more, hbuffer, hrest⟩
  · by_cases hmissing : missing = []
    · subst hmissing
      exact .inr ⟨[], by simp [hfirst], by simp [hunread]⟩
    · exact .inl ⟨missing, hmissing, hfirst.symm⟩
  · exact .inr ⟨more, hbuffer, hrest.symm⟩

theorem current_cases (hparse : ReadsHeaders parse) (hat : At r m frames (r.buffer ++ unread))
    (hunread : unread ≠ []) :
    ∃ f rest, frames = f :: rest ∧ Current parse r m f rest unread (r.current parse) := by
  generalize hbytes : r.buffer ++ unread = bytes at hat
  cases hat with
  | @inside f frames mask k ha hc hframe hk =>
    refine ⟨f, frames, rfl, ?_⟩
    rw [Reader.current, hframe]
    exact .reads ha hc hk.le ⟨rfl, rfl, rfl⟩ hbytes (by omega)
  | between hframe hm =>
    match frames with
    | [] => simp [wireOf, hunread] at hbytes
    | f :: frames =>
      refine ⟨f, frames, rfl, ?_⟩
      rw [wireOf_cons] at hbytes
      rcases append_split hbytes with ⟨missing, hmissing, hheader⟩ | ⟨more, hbuffer, hmore⟩
      · have hwait := hparse.cut f.header _ _ _ f.fits hmissing hheader
        simp only [Reader.current, hframe, hwait]
        exact .waits hframe hwait
      · have hlong : 2 ≤ (f.header.wire f.payload.length).length := by simp [FrameHeader.wire]
        have hshort : frames = [] → unread.length < f.wire.length := by
          rintro rfl
          have := congrArg List.length hmore
          simp only [wireOf, List.flatMap_nil, List.append_nil, List.length_append] at this
          simp only [Frame.wire, List.length_append]
          omega
        rcases hparse.whole f.header _ more f.fits with hok | ⟨hreserved, herror⟩
        · simp only [Reader.current, hframe, hbuffer, hok]
          rcases startFrame_cases f hm with ⟨mask, s', ha, hc, hstart⟩ | ⟨haccept, e, hstart⟩
          · simp only [hstart, List.drop_left]
            refine .reads ha hc (Nat.zero_le _) ⟨rfl, rfl, rfl⟩ hmore ?_
            simp only [hbuffer, List.length_append]
            omega
          · simp only [hstart]
            exact .fails (by simp) haccept hshort
        · simp only [Reader.current, hframe, hbuffer, herror]
          exact .fails (by simp) (accept_reserved _ _ f hreserved) hshort

/-- `take` reads what is buffered of the frame and leaves the rest of the bytes. -/
theorem take_cases {f : Frame} {mask : Mask} {k : Nat} {limit : Nat} (ha : Admitted f mask)
    (hc : Carries limit f k m r.message) (hk : k ≤ f.payload.length)
    (hbytes : r.buffer ++ unread = f.body.drop k ++ wireOf frames) :
    ∃ r', r.take (started f mask k) =
        some (started f mask (k + min (f.payload.length - k) r.buffer.length), r') ∧ r.Moved r' ∧
      Carries limit f (k + min (f.payload.length - k) r.buffer.length) m r'.message ∧
      r'.buffer = r.buffer.drop (min (f.payload.length - k) r.buffer.length) ∧
      r'.buffer ++ unread =
        f.body.drop (k + min (f.payload.length - k) r.buffer.length) ++ wireOf frames := by
  set available := min (f.payload.length - k) r.buffer.length with havailable
  have hbody : (f.body.drop k).length = f.payload.length - k := by simp [ha.body_eq]
  have hdrop : r.buffer.drop available ++ unread = f.body.drop (k + available) ++ wireOf frames := by
    have := congrArg (List.drop available) hbytes
    rwa [List.drop_append_of_le_length (by omega), List.drop_append_of_le_length (by omega),
      List.drop_drop] at this
  have htake : (started f mask k).len - (started f mask k).read = f.payload.length - k := rfl
  unfold Reader.take
  simp only [htake, ← havailable]
  split
  · have hchunk : r.buffer.take available = masked mask k ((f.payload.drop k).take available) := by
      have := congrArg (List.take available) hbytes
      rwa [List.take_append_of_le_length (by omega), List.take_append_of_le_length (by omega),
        ha.body_eq, drop_masked, take_masked, Nat.zero_add] at this
    have hlength : ((f.payload.drop k).take available).length = available := by
      simp only [List.length_take, List.length_drop]
      omega
    obtain ⟨s', hconsume, hcarries⟩ := consume_eq mask ((f.payload.drop k).take available) hc
      (by rw [hlength]) (by rw [hlength]; omega)
    rw [hlength] at hconsume hcarries
    rw [hchunk, hconsume]
    exact ⟨_, rfl, ⟨rfl, rfl, rfl⟩, hcarries, rfl, hdrop⟩
  · have hzero : available = 0 := by omega
    rw [hzero, List.drop_zero] at hdrop
    rw [hzero, Nat.add_zero, List.drop_zero]
    exact ⟨r, rfl, ⟨rfl, rfl, rfl⟩, hc, rfl, hdrop⟩

end

/-! ### One message -/

def Delivery.cons (inbound : Inbound) (d : Delivery) : Delivery :=
  { d with events := inbound :: d.events }

/-- The reader has nothing to go on with. -/
def Blocked (parse : HeaderParser) (r : Reader) : Prop :=
  (r.frame = none ∧ parse r.buffer = .ok none) ∨
    ∃ frame, r.frame = some frame ∧ frame.read < frame.len ∧ r.buffer = []

/-- What `advance` comes to, with the last of `frames` not wholly there. -/
inductive Advance (parse : HeaderParser) (r : Reader) (m : Option Open) (frames : List Frame)
    (unread : List Byte) : Except Error (Option Inbound) × Reader → Prop where
  | waits {r' : Reader} {m' : Option Open} {frames' : List Frame} (hblocked : Blocked parse r')
      (hat : At r' m' frames' (r'.buffer ++ unread)) (hmoved : r.Moved r')
      (hdeliver : deliver r.limit m frames.dropLast = deliver r.limit m' frames'.dropLast)
      (hlast : frames'.getLast? = frames.getLast?) : Advance parse r m frames unread (.ok none, r')
  | hands {r' : Reader} {m' : Option Open} {frames' : List Frame} {inbound : Inbound}
      (hat : At r' m' frames' (r'.buffer ++ unread)) (hmoved : r.Moved r')
      (hdeliver : deliver r.limit m frames.dropLast =
        (deliver r.limit m' frames'.dropLast).cons inbound)
      (hlast : frames'.getLast? = frames.getLast?) :
      Advance parse r m frames unread (.ok (some inbound), r')
  | fails {r' : Reader} {e : Error} {f : Frame} {m' : Option Open} {frames' : List Frame}
      (he : e ≠ .unreachable) (haccept : accept r.limit m' f = none)
      (hdeliver : deliver r.limit m frames.dropLast = deliver r.limit m' (f :: frames').dropLast)
      (hlast : (f :: frames').getLast? = frames.getLast?)
      (hshort : frames' = [] → unread.length < f.wire.length) :
      Advance parse r m frames unread (.error e, r')

section
variable {parse : HeaderParser} {r : Reader} {m : Option Open} {frames : List Frame}
  {unread : List Byte}

/-- A fragment that completes nothing changes nothing of what is delivered. -/
theorem Advance.silent {r' : Reader} {m' : Option Open} {f : Frame}
    {result : Except Error (Option Inbound) × Reader} (h : Advance parse r' m' frames unread result)
    (hmoved : r.Moved r') (hne : frames ≠ []) (haccept : accept r.limit m f = some (none, m')) :
    Advance parse r m (f :: frames) unread result := by
  have hlast : (f :: frames).getLast? = frames.getLast? := by
    rw [List.getLast?_cons_of_ne_nil hne]
  have hdeliver : deliver r.limit m (f :: frames).dropLast = deliver r.limit m' frames.dropLast := by
    rw [List.dropLast_cons_of_ne_nil hne, deliver, haccept]
  cases h with
  | waits hblocked hat hmoved' hd hl =>
    rw [hmoved.limit] at hd
    exact .waits hblocked hat (hmoved.trans hmoved') (hdeliver.trans hd) (hl.trans hlast.symm)
  | hands hat hmoved' hd hl =>
    rw [hmoved.limit] at hd
    exact .hands hat (hmoved.trans hmoved') (hdeliver.trans hd) (hl.trans hlast.symm)
  | fails he ha hd hl hshort =>
    rw [hmoved.limit] at hd ha
    exact .fails he ha (hdeliver.trans hd) (hl.trans hlast.symm) hshort

theorem advanceLoop_cases (hparse : ReadsHeaders parse) (hunread : unread ≠ []) (fuel : Nat)
    (hfuel : r.buffer.length < fuel) (hat : At r m frames (r.buffer ++ unread)) :
    Advance parse r m frames unread (r.advanceLoop parse fuel) := by
  -- every frame that ends takes at least one byte from the buffer
  induction fuel generalizing r m frames with
  | zero => omega
  | succ fuel ih =>
    obtain ⟨f, rest, rfl, hcurrent⟩ := current_cases hparse hat hunread
    rw [Reader.advanceLoop]
    generalize r.current parse = result at hcurrent
    cases hcurrent with
    | waits hframe hwait => exact .waits (.inl ⟨hframe, hwait⟩) hat ⟨rfl, rfl, rfl⟩ rfl rfl
    | fails he haccept hshort => exact .fails he haccept rfl rfl hshort
    | @reads mask k r' ha hc hk hmoved hbytes hprogress =>
      obtain ⟨r'', htake, hmoved', hc', hbuffer, hbytes'⟩ := take_cases ha hc hk hbytes
      set available := min (f.payload.length - k) r'.buffer.length with havailable
      simp only [htake]
      have hread : (started f mask (k + available)).read = k + available := rfl
      have hlen : (started f mask (k + available)).len = f.payload.length := rfl
      rw [hread, hlen]
      split
      · -- the frame goes on after the buffer
        rename_i hmore
        have hempty : r''.buffer = [] := by
          rw [hbuffer]
          exact List.drop_of_length_le (by omega)
        have hmoved'' := hmoved.trans hmoved'
        have hat' : At { r'' with frame := some (started f mask (k + available)) } m (f :: rest)
            (r''.buffer ++ unread) := by
          rw [hbytes']
          refine .inside ha ?_ rfl hmore
          show Carries r''.limit f (k + available) m r''.message
          rwa [hmoved''.limit]
        exact .waits (.inr ⟨_, rfl, hmore, hempty⟩) hat'
          ⟨hmoved''.limit, hmoved''.closed, hmoved''.ended⟩ rfl rfl
      · -- the frame ends in the buffer
        rename_i hend
        have hdone : k + available = f.payload.length := by omega
        have hafter : r''.buffer ++ unread = wireOf rest := by
          rw [hbytes', hdone, List.drop_of_length_le (by simp [ha.body_eq]), List.nil_append]
        have hne : rest ≠ [] := by
          rintro rfl
          simp [wireOf, hunread] at hafter
        have hshorter : r''.buffer.length < fuel := by
          rw [hbuffer, List.length_drop]
          omega
        rw [hdone] at hc' ⊢
        have hmoved'' := hmoved.trans hmoved'
        rcases finishFrame_cases ha hc' with ⟨i, m', s', haccept, hfinish, hb⟩ | ⟨haccept, e, he, hfinish⟩
        · simp only [hfinish]
          have hat' : At { r'' with frame := none, message := s' } m' rest (r''.buffer ++ unread) := by
            rw [hafter]
            refine .between rfl ?_
            show Between r''.limit m' s'
            rwa [hmoved''.limit]
          cases i with
          | none =>
            exact (ih (r := { r'' with frame := none, message := s' }) hshorter hat').silent
              ⟨hmoved''.limit, hmoved''.closed, hmoved''.ended⟩ hne haccept
          | some inbound =>
            refine .hands hat' ⟨hmoved''.limit, hmoved''.closed, hmoved''.ended⟩ ?_ ?_
            · rw [List.dropLast_cons_of_ne_nil hne, deliver, haccept]
              rfl
            · rw [List.getLast?_cons_of_ne_nil hne]
        · simp only [hfinish]
          exact .fails he haccept rfl rfl fun h => absurd h hne

theorem advance_blocked (h : Blocked parse r) : r.advance parse = (.ok none, r) := by
  rcases h with ⟨hframe, hparse⟩ | ⟨frame, hframe, hread, hbuffer⟩
  · simp only [Reader.advance, Reader.advanceLoop, Reader.current, hframe, hparse]
  · have htake : r.take frame = some (frame, r) := by simp [Reader.take, hbuffer]
    have hsame : { r with frame := some frame } = r := by rw [← hframe]
    simp only [Reader.advance, Reader.advanceLoop, Reader.current, hframe, htake, hread, if_true, hsame]

/-- Where a blocked reader is when all that was sent is read. -/
theorem blocked_last {g : Frame} (hparse : ReadsHeaders parse)
    (hat : At r m frames (r.buffer ++ unread)) (hblocked : Blocked parse r)
    (hlast : frames.getLast? = some g) (hshort : unread.length ≤ g.wire.length) :
    frames = [g] ∧ (r.frame = none → r.buffer ++ unread = g.wire) ∧
      (r.frame ≠ none → unread.length < g.wire.length) := by
  have hsuffix {f : Frame} {rest : List Frame} (hl : (f :: rest).getLast? = some g) (hne : rest ≠ []) :
      unread.length ≤ (wireOf rest).length := by
    rw [List.getLast?_cons_of_ne_nil hne] at hl
    obtain ⟨before, rfl⟩ := List.getLast?_eq_some_iff.mp hl
    simp only [wireOf, List.flatMap_append, List.flatMap_singleton, List.length_append]
    omega
  generalize hbytes : r.buffer ++ unread = bytes at hat
  cases hat with
  | between hframe hm =>
    rcases hblocked with ⟨-, hwait⟩ | ⟨frame, hsome, -⟩
    swap
    · rw [hframe] at hsome
      cases hsome
    match frames with
    | [] => cases hlast
    | f :: rest =>
      -- a whole header would have been parsed
      have hpart : r.buffer.length < (f.header.wire f.payload.length).length := by
        rw [wireOf_cons] at hbytes
        rcases append_split hbytes with ⟨missing, hmissing, hheader⟩ | ⟨more, hbuffer, -⟩
        · rw [← hheader, List.length_append]
          have := List.length_pos_iff.mpr hmissing
          omega
        · rw [hbuffer] at hwait
          rcases hparse.whole f.header _ more f.fits with hok | ⟨-, herror⟩
          · rw [hok] at hwait
            cases hwait
          · rw [herror] at hwait
            cases hwait
      have hnil : rest = [] := by
        by_contra hne
        have hlen := congrArg List.length hbytes
        have := hsuffix hlast hne
        rw [wireOf_cons] at hlen
        simp only [List.length_append] at hlen
        omega
      subst hnil
      obtain rfl : f = g := by simpa using hlast
      exact ⟨rfl, fun _ => by simp [wireOf], fun h => absurd hframe h⟩
  | @inside f rest mask k ha hc hframe hk =>
    rcases hblocked with ⟨hnone, -⟩ | ⟨frame, -, -, hbuffer⟩
    · rw [hframe] at hnone
      cases hnone
    have hlen := congrArg List.length hbytes
    simp only [hbuffer, List.nil_append, List.length_append, List.length_drop, ha.body_eq,
      length_masked] at hlen
    have hnil : rest = [] := by
      by_contra hne
      have := hsuffix hlast hne
      omega
    subst hnil
    obtain rfl : f = g := by simpa using hlast
    refine ⟨rfl, fun h => ?_, fun _ => ?_⟩
    · rw [hframe] at h
      cases h
    · simp only [Frame.wire, List.length_append, ha.body_eq, length_masked, FrameHeader.wire,
        List.length_cons]
      simp only [wireOf, List.flatMap_nil, List.length_nil] at hlen
      omega

end

/-! ### All calls -/

/-- How the socket goes on after all that was sent. -/
inductive Ending where
  | stalled | ended | failed
deriving DecidableEq, Repr

def Ending.reads : Ending → List Read
  | .stalled => []
  | .ended => [.data []]
  | .failed => [.failed]

/-- What the reader reads: the bytes in pieces, and then the end. -/
def stream (chunks : List (List Byte)) (ending : Ending) : List Read :=
  chunks.map .data ++ ending.reads

/-- What the calls come to when there is nothing more to hand out. -/
inductive Finale where
  | pending | done
  | error (error : Error)
deriving DecidableEq, Repr

def Finale.poll : Finale → Poll
  | .pending => .pending
  | .done => .ready none
  | .error e => .ready (some (.error e))

/-- One error, then nothing. -/
def Finale.next : Finale → Finale
  | .pending => .pending
  | .done => .done
  | .error _ => .done

/-- The first `n` calls: all of `events`, and then the finale. -/
def polls : List Inbound → Finale → Nat → List Poll
  | _, _, 0 => []
  | inbound :: events, finale, n + 1 => .ready (some (.ok inbound)) :: polls events finale n
  | [], finale, n + 1 => finale.poll :: polls [] finale.next n

/-- Which finale may follow, with `rest` of a frame that is not wholly sent. The reader waits
for more while the socket is open; it is done after a close frame at the end of a frame; and
all else is an error. A frame that is cut may be refused before its end is seen. -/
def Finale.Follows (violated closes : Bool) (rest : List Byte) (ending : Ending) : Finale → Prop
  | .pending => violated = false ∧ ending = .stalled
  | .done => violated = false ∧ ending = .ended ∧ closes = true ∧ rest = []
  | .error e => e ≠ .unreachable ∧
      (violated = true ∨ rest ≠ [] ∨ ending = .failed ∨ (ending = .ended ∧ closes = false))

/-- What a call comes to with `rest` of the last frame sent and `missing` not. -/
inductive Next (parse : HeaderParser) (r : Reader) (m : Option Open) (frames : List Frame)
    (rest missing : List Byte) (ending : Ending) : Poll × Reader × List Read → Prop where
  | hands {r' : Reader} {m' : Option Open} {frames' : List Frame} {inbound : Inbound}
      {chunks : List (List Byte)} (hchunks : ∀ c ∈ chunks, c ≠ [])
      (hat : At r' m' frames' (r'.buffer ++ (chunks.flatten ++ missing)))
      (hdeliver : deliver r.limit m frames.dropLast =
        (deliver r'.limit m' frames'.dropLast).cons inbound)
      (hlast : frames'.getLast? = frames.getLast?)
      (hclosed : r'.closed = (r.closed || inbound.isClose)) (hended : r'.ended = r.ended) :
      Next parse r m frames rest missing ending
        (.ready (some (.ok inbound)), r', stream chunks ending)
  | ends (finale : Finale) {r' : Reader} {reads : List Read}
      (hevents : (deliver r.limit m frames.dropLast).events = [])
      (hfollows : finale.Follows (deliver r.limit m frames.dropLast).violated r.closed rest ending)
      (hpending : finale = .pending → reads = [] ∧ Blocked parse r' ∧ r'.ended = r.ended)
      (hended : finale ≠ .pending → r'.ended = true) :
      Next parse r m frames rest missing ending (finale.poll, r', reads)

section
variable {parse : HeaderParser} {r : Reader} {m : Option Open} {frames : List Frame}
  {rest missing : List Byte} {g : Frame} {ending : Ending}

theorem deliver_nil (limit : Nat) (m : Option Open) :
    deliver limit m [] = { events := [], violated := false } := by
  cases m <;> rfl

/-- A violation ends what is delivered, unless only a part of its frame was sent. -/
theorem deliver_violation {limit : Nat} {f : Frame} (haccept : accept limit m f = none) :
    (deliver limit m (f :: frames).dropLast).events = [] ∧
      ((deliver limit m (f :: frames).dropLast).violated = true ∨ frames = []) := by
  match frames with
  | [] => exact ⟨by simp [deliver_nil], .inr rfl⟩
  | f' :: rest =>
    rw [List.dropLast_cons_of_ne_nil (List.cons_ne_nil _ _), deliver, haccept]
    exact ⟨rfl, .inl rfl⟩

/-- A call with everything read that was sent. -/
theorem ends_of_blocked {r' : Reader} {m' : Option Open} {frames' : List Frame}
    (hparse : ReadsHeaders parse) (hrest : rest ++ missing = g.wire)
    (hblocked : Blocked parse r') (hat : At r' m' frames' (r'.buffer ++ missing))
    (hlast : frames'.getLast? = some g) :
    frames' = [g] ∧ (r'.frame.isNone && r'.buffer.isEmpty) = rest.isEmpty := by
  have hshort : missing.length ≤ g.wire.length := by
    rw [← hrest, List.length_append]
    omega
  obtain ⟨rfl, hnone, hsome⟩ := blocked_last hparse hat hblocked hlast hshort
  refine ⟨rfl, ?_⟩
  cases hframe : r'.frame with
  | none =>
    have hsame : r'.buffer = rest := List.append_cancel_right ((hnone hframe).trans hrest.symm)
    simp [hsame]
  | some frame =>
    have hlt := hsome (by simp [hframe])
    rw [← hrest, List.length_append] at hlt
    cases rest with
    | nil => simp at hlt
    | cons byte rest => simp

/-- A call hands something out or fails with what is buffered, or has to read. -/
theorem nextLoop_or_waits (hparse : ReadsHeaders parse) (hmissing : missing ≠ [])
    (hrest : rest ++ missing = g.wire) (chunks : List (List Byte)) (hchunks : ∀ c ∈ chunks, c ≠ [])
    (hat : At r m frames (r.buffer ++ (chunks.flatten ++ missing)))
    (hlast : frames.getLast? = some g) :
    Next parse r m frames rest missing ending (r.nextLoop parse (stream chunks ending)) ∨
      ∃ r' m' frames', r.advance parse = (.ok none, r') ∧ Blocked parse r' ∧
        At r' m' frames' (r'.buffer ++ (chunks.flatten ++ missing)) ∧ r.Moved r' ∧
        deliver r.limit m frames.dropLast = deliver r.limit m' frames'.dropLast ∧
        frames'.getLast? = some g := by
  have hunread : chunks.flatten ++ missing ≠ [] := by simp [hmissing]
  have hadvance := advanceLoop_cases hparse hunread _ (Nat.lt_succ_self _) hat
  rw [← Reader.advance] at hadvance
  generalize hresult : r.advance parse = result at hadvance
  unfold Reader.nextLoop
  cases hadvance with
  | waits hblocked hat' hmoved hdeliver hl =>
    exact .inr ⟨_, _, _, rfl, hblocked, hat', hmoved, hdeliver, hl.trans hlast⟩
  | @hands r' m' frames' inbound hat' hmoved hdeliver hl =>
    simp only [hresult]
    refine .inl (.hands hchunks (hat'.congr rfl rfl rfl) ?_ hl ?_ hmoved.ended)
    · exact hdeliver.trans (by rw [hmoved.limit])
    · simp only [hmoved.closed]
  | @fails r' e f m' frames' he haccept hdeliver hl hshort =>
    simp only [hresult]
    obtain ⟨hevents, hviolated⟩ := deliver_violation haccept
    rw [← hdeliver] at hevents hviolated
    have hcut : frames' = [] → rest ≠ [] := by
      rintro rfl rfl
      obtain rfl : f = g := by simpa [hlast] using hl
      have := hshort rfl
      rw [← hrest] at this
      simp only [List.nil_append, List.length_append] at this
      omega
    refine .inl (.ends (.error e) hevents ⟨he, ?_⟩ (by simp) fun _ => rfl)
    rcases hviolated with hviolated | hnil
    · exact .inl hviolated
    · exact .inr (.inl (hcut hnil))

/-- Reading on from where the reader has moved to is reading on. -/
theorem Next.moved {r' : Reader} {m' : Option Open} {frames' : List Frame}
    {result : Poll × Reader × List Read} (h : Next parse r' m' frames' rest missing ending result)
    (hmoved : r.Moved r')
    (hdeliver : deliver r.limit m frames.dropLast = deliver r.limit m' frames'.dropLast)
    (hlast : frames'.getLast? = frames.getLast?) :
    Next parse r m frames rest missing ending result := by
  cases h with
  | hands hchunks hat hd hl hclosed hended =>
    refine .hands hchunks hat ?_ (hl.trans hlast) ?_ (hended.trans hmoved.ended)
    · rw [hdeliver, ← hd, hmoved.limit]
    · rw [hclosed, hmoved.closed]
  | ends finale hevents hfollows hpending hended =>
    rw [hmoved.limit, ← hdeliver] at hevents hfollows
    rw [hmoved.closed] at hfollows
    refine .ends finale hevents hfollows (fun h => ?_) hended
    obtain ⟨hreads, hblocked, hend⟩ := hpending h
    exact ⟨hreads, hblocked, hend.trans hmoved.ended⟩

theorem nextLoop_cases (hparse : ReadsHeaders parse) (hmissing : missing ≠ [])
    (hrest : rest ++ missing = g.wire) (chunks : List (List Byte)) (hchunks : ∀ c ∈ chunks, c ≠ [])
    (hat : At r m frames (r.buffer ++ (chunks.flatten ++ missing)))
    (hlast : frames.getLast? = some g) :
    Next parse r m frames rest missing ending (r.nextLoop parse (stream chunks ending)) := by
  induction chunks generalizing r m frames with
  | nil =>
    rcases nextLoop_or_waits hparse hmissing hrest [] hchunks hat hlast with
      hnext | ⟨r', m', frames', hadvance, hblocked, hat', hmoved, hdeliver, hl⟩
    · exact hnext
    obtain ⟨rfl, hclean⟩ := ends_of_blocked hparse hrest hblocked hat' hl
    have hdone : deliver r.limit m frames.dropLast = { events := [], violated := false } := by
      rw [hdeliver]
      exact deliver_nil _ _
    have hevents := congrArg Delivery.events hdone
    have hviolated := congrArg Delivery.violated hdone
    unfold Reader.nextLoop
    simp only [hadvance]
    cases ending with
    | stalled =>
      exact .ends .pending hevents ⟨hviolated, rfl⟩ (fun _ => ⟨rfl, hblocked, hmoved.ended⟩)
        (fun h => absurd rfl h)
    | failed =>
      exact .ends (.error .io) hevents ⟨by simp, .inr (.inr (.inl rfl))⟩ (by simp) fun _ => rfl
    | ended =>
      simp only [stream, Ending.reads, List.map_nil, List.nil_append, Bool.and_assoc, hclean,
        hmoved.closed]
      split
      · rename_i hend
        simp only [Bool.and_eq_true, List.isEmpty_iff] at hend
        exact .ends .done hevents ⟨hviolated, rfl, hend.1, hend.2⟩ (by simp) fun _ => rfl
      · rename_i hend
        refine .ends (.error (.protocol .resetWithoutClosingHandshake)) hevents
          ⟨by simp, ?_⟩ (by simp) fun _ => rfl
        by_cases hnil : rest = []
        · exact .inr (.inr (.inr ⟨rfl, by simpa [hnil] using hend⟩))
        · exact .inr (.inl hnil)
  | cons chunk chunks ih =>
    rcases nextLoop_or_waits hparse hmissing hrest (chunk :: chunks) hchunks hat hlast with
      hnext | ⟨r', m', frames', hadvance, hblocked, hat', hmoved, hdeliver, hl⟩
    · exact hnext
    match chunk, hchunks chunk (List.mem_cons_self ..) with
    | byte :: bytes, _ =>
      unfold Reader.nextLoop
      simp only [hadvance, stream, List.map_cons, List.cons_append]
      have hbytes : r'.buffer ++ (((byte :: bytes) :: chunks).flatten ++ missing) =
          r'.buffer ++ byte :: bytes ++ (chunks.flatten ++ missing) := by simp
      rw [hbytes] at hat'
      have hread := ih (r := { r' with buffer := r'.buffer ++ byte :: bytes })
        (fun c hc => hchunks c (List.mem_cons_of_mem _ hc)) (hat'.congr rfl rfl rfl) hl
      exact hread.moved ⟨hmoved.limit, hmoved.closed, hmoved.ended⟩ hdeliver (hl.trans hlast.symm)

theorem calls_ended (h : r.ended = true) (reads : List Read) (n : Nat) :
    r.calls parse n reads = polls [] .done n := by
  induction n with
  | zero => rfl
  | succ n ih => simp only [Reader.calls, Reader.next, h, if_true, polls, Finale.poll, Finale.next, ih]

theorem calls_blocked (hended : r.ended = false) (h : Blocked parse r) (n : Nat) :
    r.calls parse n [] = polls [] .pending n := by
  induction n with
  | zero => rfl
  | succ n ih =>
    simp only [Reader.calls, Reader.next, hended, Reader.nextLoop, advance_blocked h]
    exact congrArg _ ih

/-- The calls hand out all that is delivered, one after the other, and then the finale. -/
theorem calls_eq (ending : Ending) (hparse : ReadsHeaders parse) (hmissing : missing ≠ [])
    (hrest : rest ++ missing = g.wire) (chunks : List (List Byte)) (hchunks : ∀ c ∈ chunks, c ≠ [])
    (hat : At r m frames (r.buffer ++ (chunks.flatten ++ missing)))
    (hlast : frames.getLast? = some g) (hended : r.ended = false) :
    ∃ finale : Finale, finale.Follows (deliver r.limit m frames.dropLast).violated
        (r.closed || (deliver r.limit m frames.dropLast).closes) rest ending ∧
      ∀ n, r.calls parse n (stream chunks ending) =
        polls (deliver r.limit m frames.dropLast).events finale n := by
  -- by the number of events still to come
  induction hn : (deliver r.limit m frames.dropLast).events.length using Nat.strong_induction_on
    generalizing r m frames chunks with
  | _ count ih =>
    subst hn
    have hnext : Next parse r m frames rest missing ending (r.next parse (stream chunks ending)) := by
      rw [Reader.next, hended]
      exact nextLoop_cases hparse hmissing hrest chunks hchunks hat hlast
    have hcalls (n : Nat) : r.calls parse (n + 1) (stream chunks ending) =
        (r.next parse (stream chunks ending)).1 ::
          (r.next parse (stream chunks ending)).2.1.calls parse n
            (r.next parse (stream chunks ending)).2.2 := rfl
    generalize r.next parse (stream chunks ending) = result at hnext hcalls
    cases hnext with
    | @hands r' m' frames' inbound chunks' hchunks' hat' hdeliver hl hclosed hend =>
      obtain ⟨finale, hfollows, hpolls⟩ := ih _ (by rw [hdeliver]; simp [Delivery.cons]) chunks' hchunks'
        hat' (hl.trans hlast) (hend.trans hended) rfl
      rw [hdeliver]
      refine ⟨finale, ?_, fun n => ?_⟩
      · simpa [hclosed, Delivery.cons, Delivery.closes, Bool.or_assoc] using hfollows
      · cases n with
        | zero => rfl
        | succ n => rw [hcalls, hpolls]; rfl
    | @ends finale r' reads hevents hfollows hpending hend =>
      have hcloses : (deliver r.limit m frames.dropLast).closes = false := by
        rw [Delivery.closes, hevents]
        rfl
      rw [hevents, hcloses, Bool.or_false]
      refine ⟨finale, hfollows, fun n => ?_⟩
      cases n with
      | zero => rfl
      | succ n =>
        rw [hcalls, polls]
        congr 1
        cases finale with
        | pending =>
          obtain ⟨rfl, hblocked, he⟩ := hpending rfl
          exact calls_blocked (he.trans hended) hblocked n
        | done => exact calls_ended (hend (by simp)) reads n
        | error e => exact calls_ended (hend (by simp)) reads n

end

/-- Whatever frames a client sends, however their bytes are split into reads, and even if
only a part `rest` of the last one gets through, the calls of `next` hand out exactly what the
frames complete before the first of them that breaks a rule. A broken rule is one error, and
nothing follows it. -/
theorem reader_delivers (parse : HeaderParser) (hparse : ReadsHeaders parse) (limit : Nat)
    (frames : List Frame) (rest : List Byte) (hrest : ∃ f : Frame, rest <+: f.wire ∧ rest ≠ f.wire)
    (chunks : List (List Byte)) (hchunks : ∀ c ∈ chunks, c ≠ [])
    (hwire : chunks.flatten = wireOf frames ++ rest) (ending : Ending) :
    ∃ finale : Finale, finale.Follows (deliver limit none frames).violated
        (deliver limit none frames).closes rest ending ∧
      ∀ n, (Reader.new limit).calls parse n (stream chunks ending) =
        polls (deliver limit none frames).events finale n := by
  obtain ⟨g, ⟨missing, hg⟩, hne⟩ := hrest
  have hmissing : missing ≠ [] := by
    rintro rfl
    exact hne (by simpa using hg)
  have hbytes : (Reader.new limit).buffer ++ (chunks.flatten ++ missing) = wireOf (frames ++ [g]) := by
    simp [Reader.new, hwire, wireOf, hg]
  have hat : At (Reader.new limit) none (frames ++ [g])
      ((Reader.new limit).buffer ++ (chunks.flatten ++ missing)) := by
    rw [hbytes]
    exact .between rfl trivial
  have h := calls_eq ending hparse hmissing hg chunks hchunks hat (by simp) rfl
  simpa [Reader.new] using h

/-- A client's frame, in order but for what its opcode and payload make of it. -/
def clientFrame (opcode : OpCode) (isFinal : Bool) (payload : List Byte) (h : payload.length < 2 ^ 63) :
    Frame where
  header := { isFinal, rsv1 := false, rsv2 := false, rsv3 := false, opcode
              mask := some fun i => UInt8.ofNat (0x37 + i) }
  payload := payload
  fits := h

/-- A message in two fragments with a ping between them, and a close frame. -/
def fragmented : List Frame :=
  [clientFrame (.data .binary) false [1, 2] (by decide),
    clientFrame (.control .ping) true [7] (by decide),
    clientFrame (.data .continue) true [3, 4] (by decide),
    clientFrame (.control .close) true [] (by decide)]

theorem reader_delivers_fragmented :
    (deliver 3 none fragmented).events =
        [.message (.ping [7]), .oversized { size := 4, head := [1, 2, 3, 4], tail := [] },
          .message (.close none)] ∧
      ∃ finale : Finale, finale.Follows (deliver 3 none fragmented).violated
          (deliver 3 none fragmented).closes [] .ended ∧
        ∀ n, (Reader.new 3).calls parseHeader n
            (stream [(wireOf fragmented).take 7, (wireOf fragmented).drop 7] .ended) =
          polls (deliver 3 none fragmented).events finale n := by
  refine ⟨by decide +kernel, ?_⟩
  apply reader_delivers parseHeader readsHeaders_parseHeader
  · exact ⟨clientFrame (.control .ping) true [] (by decide), List.nil_prefix, by decide⟩
  · decide
  · simp

/-- A close frame with one byte is masked, final and small, and the reader refuses it. -/
theorem one_byte_close_refused :
    let f := clientFrame (.control .close) true [3] (by decide)
    f.header.mask.isSome = true ∧ f.header.isFinal = true ∧ f.header.opcode.isReserved = false ∧
      (f.header.rsv1 || f.header.rsv2 || f.header.rsv3) = false ∧
      f.payload.length ≤ maxControlPayload ∧
      (Reader.new 100).calls parseHeader 2 (stream [f.wire] .ended) =
        [.ready (some (.error (.protocol .invalidCloseSequence))), .ready none] := by
  refine ⟨rfl, rfl, rfl, rfl, by decide, rfl⟩

end Iii.Worker
