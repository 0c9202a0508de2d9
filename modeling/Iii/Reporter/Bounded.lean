import Iii.Reporter.Order

/-! The limits of the buffer: how many items and bytes it holds, and what a frame takes of them.

The steps come in any order here. Besides those of the connection loop the gate may answer anything,
and any frame may be written, lost or requeued on its own. -/
namespace Iii.Reporter
open Lib

variable {B : Type} {J : Wire B} {L : Limits} {s s' s'' : State B} {f : Flush B}

/-- What the text of a frame is long: its items with a comma between them. -/
def Frame.length (J : Wire B) (frame : Frame B) : Nat :=
  frameOpen + (frame.items.map J.json).sum + (frame.items.length - 1) + frameClose

namespace State

/-- A frame that is lost: its lease is dropped and its items are counted. -/
def lose (s : State B) (frame : Frame B) (rest : List (Frame B)) : State B :=
  (unlease { s with outbox := rest } frame.bytes).dropItems .inactive frame.items

/-- Some frames come back. -/
def requeueSome (J : Wire B) (L : Limits) (s : State B) (back rest : List (Frame B)) : State B :=
  (unlease { s with outbox := rest } (back.map Frame.bytes).sum).requeueFrames L
    ((back.flatMap Frame.items).map (Item.readBack J))

end State

inductive Move (B : Type) where
  | act (a : Act B)
  | answer (answer : Gate)
  | wrote (frame : Frame B) (rest : List (Frame B))
  | lost (frame : Frame B) (rest : List (Frame B))
  | requeue (back rest : List (Frame B))

inductive Moves (J : Wire B) (L : Limits) (s : State B) : Move B → State B → Prop where
  | act {a : Act B} {s' : State B} (hstep : s.step J L a = some s') : Moves J L s (.act a) s'
  | answer {f : Flush B} {item : Item B} {rest : List (Item B)} {answer : Gate} (hflush : s.flush = some f)
      (htaken : f.taken = item :: rest) (hnew : Assoc.get? f.gates item.functionId = none) :
      Moves J L s (.answer answer)
        { s with
          flush := some (State.Flush.sort { f with gates := Assoc.insert f.gates item.functionId answer } item rest answer) }
  | wrote {frame : Frame B} {rest : List (Frame B)} (houtbox : s.outbox.Perm (frame :: rest)) :
      Moves J L s (.wrote frame rest)
        (State.unlease { s with outbox := rest, written := s.written ++ frame.items } frame.bytes)
  | lost {frame : Frame B} {rest : List (Frame B)} (houtbox : s.outbox.Perm (frame :: rest)) :
      Moves J L s (.lost frame rest) (s.lose frame rest)
  | requeue {back rest : List (Frame B)} (houtbox : s.outbox.Perm (back ++ rest)) :
      Moves J L s (.requeue back rest) (s.requeueSome J L back rest)

def traffic (J : Wire B) (L : Limits) : Machine (State B) (Move B) Unit where
  Step := fun s m _ s' => Moves J L s m s'

/-- Where the sizes that the buffer goes by are right: an item that it takes fits a frame, also one
that grows by an emit or is read back, there is room for what an emit adds, and a flush has room for
its items, each with a frame of its own. -/
def State.within (J : Wire B) (L : Limits) (s : State B) : Move B → Bool
  | .act (.push item) =>
    s.closed || decide (largestItem L < item.estimatedSize) ||
      match s.joins item with
      | some last =>
        decide (s.bytes + s.inFlight + Item.listed item.matched ≤ L.maxBytes) &&
          decide (J.json (last.join item) ≤ largestItem L)
      | none => s.full L item.estimatedSize || decide (J.json { item with seq := s.nextSeq + 1 } ≤ largestItem L)
  | .act .endFlush =>
    s.flush.all fun f =>
      s.bytes + s.inFlight + (f.sendable.map fun item => J.json item + (frameOpen + frameClose)).sum ≤
        L.maxBytes + ((f.sendable ++ f.dropped).map Item.estimatedSize).sum
  | .act .connect =>
    s.closed || (s.outbox.flatMap Frame.items).all fun item => J.json (item.readBack J) ≤ largestItem L
  | .requeue back _ =>
    s.closed || (back.flatMap Frame.items).all fun item => J.json (item.readBack J) ≤ largestItem L
  | _ => true

/-! ### Frames -/

theorem fill_within (hbatch : 1 ≤ L.batchItems) (hframe : frameOpen + frameClose ≤ L.frameBytes)
    (cur : List (Item B)) (len : Nat) (sendable : List (Item B)) (hcount : cur.length ≤ L.batchItems)
    (hlen : cur ≠ [] → len + frameClose ≤ L.frameBytes) :
    ∀ frame ∈ fill J L cur len sendable, frame.items.length ≤ L.batchItems ∧ frame.bytes ≤ L.frameBytes := by
  induction sendable generalizing cur len with
  | nil =>
    rw [fill]
    split
    · simp
    · rename_i hcur
      intro frame hmem
      rw [List.mem_singleton.mp hmem]
      exact ⟨hcount, hlen (by simpa using hcur)⟩
  | cons item rest ih =>
    rw [fill]
    split
    · exact ih cur len hcount hlen
    · rename_i hsmall
      have hsmall : frameOpen + J.json item + frameClose ≤ L.frameBytes := by
        unfold largestItem at hsmall
        omega
      split
      · rename_i hcut
        have hcur : cur ≠ [] := by
          rintro rfl
          simp at hcut
        intro frame hmem
        rcases List.mem_cons.mp hmem with rfl | hmem
        · exact ⟨hcount, hlen hcur⟩
        · exact ih [item] _ hbatch (fun _ => hsmall) frame hmem
      · rename_i hfits
        cases hcur : cur with
        | nil => exact ih [item] _ hbatch (fun _ => hsmall)
        | cons first others =>
          subst hcur
          simp only [List.isEmpty_cons, Bool.not_false, Bool.true_and, Bool.or_eq_true, beq_iff_eq,
            decide_eq_true_eq, not_or, Nat.not_lt] at hfits
          apply ih
          · rw [List.length_append, List.length_singleton]
            omega
          · exact fun _ => hfits.2

/-- An item adds at most its text and a frame of its own. -/
theorem fill_bytes (cur : List (Item B)) (len : Nat) (sendable : List (Item B)) :
    ((fill J L cur len sendable).map Frame.bytes).sum ≤
      (if cur.isEmpty then 0 else len + frameClose) +
        (sendable.map fun item => J.json item + (frameOpen + frameClose)).sum := by
  induction sendable generalizing cur len with
  | nil =>
    rw [fill]
    split <;> simp
  | cons item rest ih =>
    rw [fill, List.map_cons, List.sum_cons]
    split
    · have hrest := ih cur len
      omega
    · split
      · rename_i hcut
        have hcur : cur.isEmpty = false := by
          cases hcur : cur.isEmpty
          · rfl
          · simp [hcur] at hcut
        have hrest := ih [item] (frameOpen + J.json item)
        simp only [List.map_cons, List.sum_cons, hcur, List.isEmpty_cons, Bool.false_eq_true, if_false] at hrest ⊢
        omega
      · have hrest := ih (cur ++ [item]) (if cur.isEmpty then frameOpen + J.json item else len + 1 + J.json item)
        have hne : (cur ++ [item]).isEmpty = false := by simp
        simp only [hne, Bool.false_eq_true, if_false] at hrest
        -- a comma is shorter than a frame of its own
        have hcomma : 1 ≤ frameOpen + frameClose := by decide
        split at hrest <;> simp_all <;> omega

/-- A frame is as long as the flush took it to be. -/
theorem fill_length (cur : List (Item B)) (len : Nat) (sendable : List (Item B))
    (hlen : cur ≠ [] → len = frameOpen + (cur.map J.json).sum + (cur.length - 1)) :
    ∀ frame ∈ fill J L cur len sendable, frame.bytes = frame.length J := by
  have hclosed : cur ≠ [] → len + frameClose = Frame.length J { items := cur, bytes := len + frameClose } := by
    intro hcur
    rw [hlen hcur]
    rfl
  have hcons : ∀ item : Item B, frameOpen + J.json item = frameOpen + ([item].map J.json).sum + ([item].length - 1) := by
    simp
  induction sendable generalizing cur len with
  | nil =>
    rw [fill]
    split
    · simp
    · rename_i hcur
      intro frame hmem
      rw [List.mem_singleton.mp hmem]
      exact hclosed (by simpa using hcur)
  | cons item rest ih =>
    have hfresh : ∀ frame ∈ fill J L [item] (frameOpen + J.json item) rest, frame.bytes = frame.length J :=
      ih [item] _ (fun _ => hcons item) fun _ => by rw [hcons item]; rfl
    rw [fill]
    split
    · exact ih cur len hlen hclosed
    · split
      · rename_i hcut
        have hcur : cur ≠ [] := by
          rintro rfl
          simp at hcut
        intro frame hmem
        rcases List.mem_cons.mp hmem with rfl | hmem
        · exact hclosed hcur
        · exact hfresh frame hmem
      · cases hcur : cur with
        | nil => exact hfresh
        | cons first others =>
          have hgrown : len + 1 + J.json item =
              frameOpen + ((cur ++ [item]).map J.json).sum + ((cur ++ [item]).length - 1) := by
            rw [hlen (by simp [hcur]), hcur]
            simp only [List.map_append, List.map_cons, List.map_nil, List.sum_append, List.sum_cons, List.sum_nil,
              List.length_append, List.length_cons, List.length_nil]
            omega
          rw [← hcur]
          apply ih
          · intro _
            rw [hcur] at hgrown ⊢
            exact hgrown
          · intro _
            rw [hcur] at hgrown ⊢
            show len + 1 + J.json item + frameClose = _
            rw [hgrown]
            rfl

/-- When every item fits a frame, the frames have them all, in order. -/
theorem frames_items_of_fits {sendable : List (Item B)} (hfits : ∀ x ∈ sendable, J.json x ≤ largestItem L) :
    (frames J L sendable).flatMap Frame.items = sendable := by
  rw [frames_items]
  exact List.filter_eq_self.mpr fun x hx => by simpa using hfits x hx

theorem tooLarge_of_fits {sendable : List (Item B)} (hfits : ∀ x ∈ sendable, J.json x ≤ largestItem L) :
    tooLarge J L sendable = [] :=
  List.filter_eq_nil_iff.mpr fun x hx => by simpa using hfits x hx

namespace State

/-! ### Steps that only take away -/

/-- The counters go down, and what is dropped is not `TOO_LARGE`. -/
structure Lightens (s s' : State B) : Prop where
  count : s'.count ≤ s.count
  bytes : s'.bytes ≤ s.bytes
  inFlight : s'.inFlight = s.inFlight
  outbox : s'.outbox = s.outbox
  tally : ∀ d ∈ s'.tally, d ∈ s.tally ∨ d.2.2 ≠ .tooLarge

/-- No item is new or changed either. -/
structure Eases (s s' : State B) : Prop extends Lightens s s' where
  buffered : ∀ x ∈ s'.buffered, x ∈ s.buffered

theorem Lightens.refl (s : State B) : Lightens s s :=
  ⟨Nat.le_refl _, Nat.le_refl _, rfl, rfl, fun _ h => .inl h⟩

theorem Lightens.trans (h : Lightens s s') (h' : Lightens s' s'') : Lightens s s'' where
  count := Nat.le_trans h'.count h.count
  bytes := Nat.le_trans h'.bytes h.bytes
  inFlight := h'.inFlight.trans h.inFlight
  outbox := h'.outbox.trans h.outbox
  tally := fun d hd => (h'.tally d hd).elim (h.tally d) .inr

theorem Eases.refl (s : State B) : Eases s s := ⟨Lightens.refl s, fun _ h => h⟩

theorem Eases.trans (h : Eases s s') (h' : Eases s' s'') : Eases s s'' :=
  ⟨h.toLightens.trans h'.toLightens, fun x hx => h.buffered x (h'.buffered x hx)⟩

theorem buffered_subset (hitems : ∀ x ∈ s'.items, x ∈ s.items) (hparked : ∀ m ∈ s'.parked, m ∈ s.parked)
    (hflush : s'.flush = s.flush) : ∀ x ∈ s'.buffered, x ∈ s.buffered := by
  intro x hx
  rcases mem_buffered.mp hx with hx | hx | ⟨f, hf, hx⟩
  · exact mem_buffered.mpr (.inl (hitems x hx))
  · obtain ⟨m, hm, hx⟩ := List.mem_flatMap.mp hx
    exact mem_buffered.mpr (.inr (.inl (List.mem_flatMap.mpr ⟨m, hparked m hm, hx⟩)))
  · exact mem_buffered.mpr (.inr (.inr ⟨f, hflush ▸ hf, hx⟩))

theorem tally_tallied (functionId : String) {reason : Reason} (seqs : List (Option Nat)) :
    ∀ d ∈ (s.tallied functionId reason seqs).tally, d ∈ s.tally ∨ (d.2.2 = reason ∧ d.1 ∈ seqs) := by
  unfold tallied
  extract_lets key
  have hkey : key.2 = reason := by
    unfold key
    split <;> rfl
  intro d hd
  rcases List.mem_append.mp hd with hd | hd
  · obtain ⟨seq, hseq, rfl⟩ := List.mem_map.mp hd
    exact .inr ⟨hkey, hseq⟩
  · exact .inl hd

theorem eases_tallied (s : State B) (functionId : String) {reason : Reason} (hreason : reason ≠ .tooLarge)
    (seqs : List (Option Nat)) : Eases s (s.tallied functionId reason seqs) := by
  refine ⟨⟨Nat.le_refl _, Nat.le_refl _, rfl, rfl, ?_⟩, fun _ h => h⟩
  intro d hd
  rcases tally_tallied functionId seqs d hd with hd | ⟨heq, _⟩
  · exact .inl hd
  · exact .inr (heq ▸ hreason)

theorem eases_less (s : State B) (count bytes : Nat) : Eases s (s.less count bytes) :=
  ⟨⟨Nat.sub_le _ _, Nat.sub_le _ _, rfl, rfl, fun _ h => .inl h⟩, fun _ h => h⟩

theorem eases_release (s : State B) (functionId : String) (items : List (Item B)) :
    Eases s (s.release functionId items) := by
  unfold release
  split
  · exact Eases.refl s
  · exact (eases_less s _ _).trans (eases_tallied _ _ (by decide) _)

theorem eases_releaseItems (s : State B) (items : List (Item B)) : Eases s (s.releaseItems items) := by
  induction items generalizing s with
  | nil => exact Eases.refl s
  | cons item rest ih => exact (eases_release s _ _).trans (ih _)

theorem eases_releaseParked (s : State B) (parked : List (String × List (Item B))) : Eases s (s.releaseParked parked) := by
  induction parked generalizing s with
  | nil => exact Eases.refl s
  | cons entry rest ih => exact (eases_release s _ _).trans (ih _)

theorem eases_dropItems (s : State B) {reason : Reason} (hreason : reason ≠ .tooLarge) (items : List (Item B)) :
    Eases s (s.dropItems reason items) := by
  induction items generalizing s with
  | nil => exact Eases.refl s
  | cons item rest ih => exact (eases_tallied s _ hreason _).trans (ih _)

theorem eases_record (s : State B) (functionId : String) (f : Nat → Fates → Fates) : Eases s (s.record functionId f) := by
  unfold record
  split
  · exact ⟨⟨Nat.le_refl _, Nat.le_refl _, rfl, rfl, fun _ h => .inl h⟩, fun _ h => h⟩
  · exact Eases.refl s

theorem eases_discard (s : State B) (functionId : String) : Eases s (s.discard functionId) := by
  unfold discard recordReleased
  extract_lets recorded dropped
  have hrecorded : Eases s recorded := eases_record s functionId _
  have htaken : Eases recorded
      { recorded with
        parked := Assoc.erase recorded.parked functionId
        items := recorded.items.filter (·.functionId ≠ functionId) } :=
    ⟨⟨Nat.le_refl _, Nat.le_refl _, rfl, rfl, fun _ h => .inl h⟩,
      buffered_subset (fun _ h => (List.mem_filter.mp h).1) (fun _ h => (List.mem_filter.mp h).1) rfl⟩
  exact (hrecorded.trans htaken).trans (eases_release _ functionId dropped)

theorem eases_expireParked (s : State B) (expired : List String) : Eases s (s.expireParked expired) := by
  induction expired generalizing s with
  | nil => exact Eases.refl s
  | cons functionId rest ih =>
    rw [expireParked]
    split
    · exact ih s
    · rename_i items _
      have herase : Eases s { s with parked := Assoc.erase s.parked functionId } :=
        ⟨⟨Nat.le_refl _, Nat.le_refl _, rfl, rfl, fun _ h => .inl h⟩,
          buffered_subset (fun _ h => h) (fun _ h => (List.mem_filter.mp h).1) rfl⟩
      refine Eases.trans ?_ (ih _)
      exact (herase.trans (eases_record _ functionId _)).trans (eases_release _ functionId items)

theorem eases_close (s : State B) : Eases s s.close := by
  have hclosed : Eases s { s with closed := true, items := [], parked := [] } :=
    ⟨⟨Nat.le_refl _, Nat.le_refl _, rfl, rfl, fun _ h => .inl h⟩, buffered_subset (by simp) (by simp) rfl⟩
  exact (hclosed.trans (eases_releaseItems _ _)).trans (eases_releaseParked _ _)

/-- A function's parked items go back in line. -/
theorem eases_unpark (s : State B) (functionId : String) : Eases s (s.unpark functionId) := by
  unfold unpark recordUnparked
  extract_lets recorded
  have hrecorded : Eases s recorded := eases_record s functionId _
  split
  · exact hrecorded
  · rename_i items hget
    refine hrecorded.trans ⟨⟨Nat.le_refl _, Nat.le_refl _, rfl, rfl, fun _ h => .inl h⟩, ?_⟩
    intro x hx
    rcases mem_buffered.mp hx with hx | hx | hx
    · rcases mem_mergeIn.mp hx with hx | hx
      · exact mem_buffered.mpr (.inl hx)
      · exact mem_buffered.mpr (.inr (.inl (Assoc.mem_flatMap_of_get? hget hx)))
    · obtain ⟨m, hm, hx⟩ := List.mem_flatMap.mp hx
      exact mem_buffered.mpr (.inr (.inl (List.mem_flatMap.mpr ⟨m, (List.mem_filter.mp hm).1, hx⟩)))
    · exact mem_buffered.mpr (.inr (.inr hx))

theorem eases_makeRoom (L : Limits) (item : Item B) (n : Nat) (s : State B) : Eases s (makeRoom L item n s) := by
  induction n generalizing s with
  | zero => exact Eases.refl s
  | succ n ih =>
    rw [makeRoom]
    split
    · split
      · rename_i newest _
        split
        · refine Eases.trans ?_ (ih _)
          have hpop : Eases s { s with items := s.items.dropLast } :=
            ⟨⟨Nat.le_refl _, Nat.le_refl _, rfl, rfl, fun _ h => .inl h⟩,
              buffered_subset (fun _ h => List.dropLast_subset _ h) (fun _ h => h) rfl⟩
          exact (hpop.trans (eases_less _ _ _)).trans (eases_tallied _ newest.functionId (by decide) _)
        · exact Eases.refl s
      · exact Eases.refl s
    · exact Eases.refl s

theorem lightens_settle (since : Nat) (held : List (Item B)) (s : State B) : Lightens s (s.settle since held).1 := by
  induction held generalizing s with
  | nil => exact Lightens.refl s
  | cons item rest ih =>
    rw [settle]
    extract_lets fates
    split
    · exact (eases_release s _ _).toLightens.trans (ih _)
    · split
      · exact ih s
      · refine Lightens.trans ?_ (ih _)
        exact ⟨Nat.le_refl _, Nat.le_refl _, rfl, rfl, fun _ h => .inl h⟩

/-! ### The limits -/

structure Bounded (J : Wire B) (L : Limits) (s : State B) : Prop where
  count : s.count ≤ L.maxItems
  bytes : s.bytes + s.inFlight ≤ L.maxBytes
  fits : ∀ x ∈ s.buffered, J.json x ≤ largestItem L
  /-- Only what was never taken is `TOO_LARGE`. -/
  accepted : ∀ d ∈ s.tally, d.2.2 = .tooLarge → d.1 = none

theorem Bounded.start (J : Wire B) (L : Limits) : Bounded J L (State.start : State B) where
  count := Nat.zero_le _
  bytes := Nat.zero_le _
  fits := by simp [buffered, State.start]
  accepted := by simp [State.start]

theorem Bounded.ease (h : Bounded J L s) (heases : Eases s s') : Bounded J L s' where
  count := Nat.le_trans heases.count h.count
  bytes := by
    rw [heases.inFlight]
    exact Nat.le_trans (Nat.add_le_add_right heases.bytes _) h.bytes
  fits := fun x hx => h.fits x (heases.buffered x hx)
  accepted := fun d hd hreason => (heases.tally d hd).elim (h.accepted d · hreason) (absurd hreason)

theorem Bounded.refuse (h : Bounded J L s) (functionId : String) (reason : Reason) :
    Bounded J L (s.tallied functionId reason [none]) := by
  refine ⟨h.count, h.bytes, h.fits, ?_⟩
  intro d hd hreason
  rcases tally_tallied functionId [none] d hd with hd | ⟨_, hnone⟩
  · exact h.accepted d hd hreason
  · exact List.mem_singleton.mp hnone

theorem full_eq_false {size : Nat} :
    s.full L size = false ↔ s.count < L.maxItems ∧ s.bytes + s.inFlight + size ≤ L.maxBytes := by
  simp [full]

theorem Bounded.push (h : Bounded J L s) {item : Item B} (hwithin : s.within J L (.act (.push item)) = true) :
    Bounded J L (s.push L item) := by
  unfold State.push
  extract_lets size
  split
  · exact h.refuse _ _
  · rename_i hsmall
    split
    · exact h.refuse _ _
    · rename_i hopen
      simp only [within, hopen, Bool.false_or, size, decide_eq_false hsmall] at hwithin hsmall
      split
      · -- the emit joins the last item, which grows
        rename_i last hjoin
        obtain ⟨init, hinit⟩ := joins_eq_some hjoin
        simp only [hjoin, Bool.and_eq_true, decide_eq_true_eq] at hwithin
        refine ⟨h.count, ?_, ?_, h.accepted⟩
        · show s.bytes + Item.listed item.matched + s.inFlight ≤ L.maxBytes
          omega
        · intro x hx
          rcases mem_buffered.mp hx with hx | hx | hx
          · rcases List.mem_append.mp hx with hx | hx
            · exact h.fits x (mem_buffered.mpr (.inl (List.dropLast_subset _ hx)))
            · rw [List.mem_singleton.mp hx]
              exact hwithin.2
          · exact h.fits x (mem_buffered.mpr (.inr (.inl hx)))
          · exact h.fits x (mem_buffered.mpr (.inr (.inr hx)))
      · rename_i hjoin
        split
        · exact h.refuse _ _
        · rename_i hroom
          have hroom : s.full L item.estimatedSize = false := Bool.eq_false_iff.mpr hroom
          obtain ⟨hcount, hbytes⟩ := full_eq_false.mp hroom
          simp only [hjoin, hroom, Bool.false_or, decide_eq_true_eq] at hwithin
          refine ⟨hcount, ?_, ?_, h.accepted⟩
          · show s.bytes + size + s.inFlight ≤ L.maxBytes
            omega
          · intro x hx
            rcases mem_buffered.mp hx with hx | hx | hx
            · rcases List.mem_append.mp hx with hx | hx
              · exact h.fits x (mem_buffered.mpr (.inl hx))
              · rw [List.mem_singleton.mp hx]
                exact hwithin
            · exact h.fits x (mem_buffered.mpr (.inr (.inl hx)))
            · exact h.fits x (mem_buffered.mpr (.inr (.inr hx)))

theorem Bounded.requeue (items : List (Item B)) (h : Bounded J L s) : Bounded J L (s.requeue L items).1 := by
  induction items generalizing s with
  | nil => exact h
  | cons item rest ih =>
    have hroom := h.ease (eases_makeRoom L item s.items.length s)
    rw [State.requeue]
    generalize makeRoom L item s.items.length s = room at hroom
    split
    · exact ih (hroom.ease (eases_tallied _ _ (by decide) _))
    · rename_i hfull
      obtain ⟨hcount, hbytes⟩ := full_eq_false.mp (Bool.eq_false_iff.mpr hfull)
      apply ih
      refine ⟨hcount, ?_, hroom.fits, hroom.accepted⟩
      show room.bytes + item.estimatedSize + room.inFlight ≤ L.maxBytes
      omega

theorem Bounded.requeueFrames {items : List (Item B)} (h : Bounded J L s)
    (hfits : s.closed = false → ∀ x ∈ items, J.json x ≤ largestItem L) : Bounded J L (s.requeueFrames L items) := by
  unfold State.requeueFrames
  extract_lets sorted
  split
  · exact h.ease (eases_dropItems s (by decide) sorted)
  · rename_i hopen
    have hrequeue := h.requeue sorted
    obtain ⟨_, hsub⟩ := requeue_spec L s sorted
    refine ⟨hrequeue.count, hrequeue.bytes, ?_, hrequeue.accepted⟩
    intro x hx
    rcases mem_buffered.mp hx with hx | hx | hx
    · rcases mem_mergeIn.mp hx with hx | hx
      · exact hrequeue.fits x (mem_buffered.mpr (.inl hx))
      · apply hfits (Bool.eq_false_iff.mpr hopen)
        exact (List.perm_insertionSort _ _).mem_iff.mp (hsub.subset hx)
    · exact hrequeue.fits x (mem_buffered.mpr (.inr (.inl hx)))
    · exact hrequeue.fits x (mem_buffered.mpr (.inr (.inr hx)))

/-- A lease is dropped. -/
theorem Bounded.unlease {rest : List (Frame B)} {written : List (Item B)} (h : Bounded J L s) (bytes : Nat) :
    Bounded J L (State.unlease { s with outbox := rest, written := written } bytes) := by
  refine ⟨h.count, ?_, h.fits, h.accepted⟩
  have hbytes := h.bytes
  show s.bytes + (s.inFlight - bytes) ≤ L.maxBytes
  omega

theorem Bounded.requeueSome {back rest : List (Frame B)} (h : Bounded J L s)
    (hwithin : s.within J L (.requeue back rest) = true) : Bounded J L (s.requeueSome J L back rest) := by
  apply Bounded.requeueFrames
  · exact h.unlease _
  · intro hopen x hx
    replace hopen : s.closed = false := hopen
    obtain ⟨item, hitem, rfl⟩ := List.mem_map.mp hx
    simp only [within, hopen, Bool.false_or, List.all_eq_true, decide_eq_true_eq] at hwithin
    exact hwithin item hitem

/-- The connection starts: all frames come back. -/
theorem connect_eq (J : Wire B) (L : Limits) (s : State B) :
    s.connect J L = requeueSome J L { s with ready := fun _ => false, linked := true } s.outbox [] := rfl

/-- The last section: the sendable items leave for their frames. -/
theorem endFlush_counts (hsendable : ∀ x ∈ f.sendable, J.json x ≤ largestItem L) :
    (s.endFlush J L f).count ≤ s.count ∧
      (s.endFlush J L f).bytes ≤ s.bytes - ((f.sendable ++ f.dropped).map Item.estimatedSize).sum ∧
      (s.endFlush J L f).inFlight = s.inFlight + ((frames J L f.sendable).map Frame.bytes).sum ∧
      ∀ d ∈ (s.endFlush J L f).tally, d ∈ s.tally ∨ d.2.2 ≠ .tooLarge := by
  unfold endFlush
  extract_lets gone s₁ out
  have hlighter := lightens_settle f.since f.held s₁
  split
  rename_i s₂ requeued hpair
  extract_lets s₃ s₄
  rw [hpair] at hlighter
  have hmerged : Lightens s₁ s₃ :=
    ⟨hlighter.count, hlighter.bytes, hlighter.inFlight, hlighter.outbox, hlighter.tally⟩
  have hcounted : Lightens s₁ s₄ := by
    unfold s₄
    rw [tooLarge_of_fits hsendable, dropItems]
    exact hmerged.trans (eases_dropItems s₃ (by decide) f.dropped).toLightens
  refine ⟨?_, hcounted.bytes, ?_, hcounted.tally⟩
  · exact Nat.le_trans hcounted.count (Nat.sub_le _ _)
  · show s₄.inFlight + _ = _
    rw [hcounted.inFlight]
    rfl

theorem Bounded.endFlush (h : Bounded J L s) (hbooks : Books 0 0 s) (hflush : s.flush = some f)
    (hwithin : s.within J L (.act .endFlush) = true) : Bounded J L (s.endFlush J L f) := by
  obtain ⟨p, hsettled, hnone, hitems, hparked, -, -⟩ := endFlush_spec J L s f
  have hall : ∀ x ∈ f.all, J.json x ≤ largestItem L := fun x hx =>
    h.fits x (mem_buffered.mpr (.inr (.inr ⟨f, hflush, hx⟩)))
  have hsendable : ∀ x ∈ f.sendable, J.json x ≤ largestItem L := fun x hx => hall x (by simp [Flush.all, hx])
  have hheld : ∀ x ∈ f.held, J.json x ≤ largestItem L := fun x hx => hall x (by simp [Flush.all, hx])
  obtain ⟨hcount, hbytes, hinFlight, htally⟩ := endFlush_counts (s := s) hsendable
  constructor
  · exact Nat.le_trans hcount h.count
  · have hreleased : ((f.sendable ++ f.dropped).map Item.estimatedSize).sum ≤ s.bytes := by
      have hbooked := hbooks.bytes
      rw [add_zero, bag, total_coe] at hbooked
      simp only [buffered, hflush, Option.elim_some, Flush.all, List.map_append, List.sum_append] at hbooked ⊢
      omega
    have hframes : ((frames J L f.sendable).map Frame.bytes).sum ≤
        (f.sendable.map fun item => J.json item + (frameOpen + frameClose)).sum := by
      simpa [frames] using fill_bytes (J := J) (L := L) [] 0 f.sendable
    simp only [within, hflush, Option.all_some, decide_eq_true_eq] at hwithin
    omega
  · intro x hx
    rcases mem_buffered.mp hx with hx | hx | ⟨g, hg, _⟩
    · rw [hitems, mem_mergeIn] at hx
      rcases hx with hx | hx
      · exact h.fits x (mem_buffered.mpr (.inl hx))
      · exact hheld x (hsettled.requeued.subset hx)
    · rw [hparked] at hx
      rcases hsettled.mem x hx with hx | hx
      · exact hheld x hx
      · exact h.fits x (mem_buffered.mpr (.inr (.inl hx)))
    · rw [hnone] at hg
      cases hg
  · intro d hd hreason
    exact (htally d hd).elim (h.accepted d · hreason) (absurd hreason)

/-! ### Runs -/

theorem Books.lose {frame : Frame B} {rest : List (Frame B)} (h : Books 0 0 s)
    (houtbox : s.outbox.Perm (frame :: rest)) : Books 0 0 (s.lose frame rest) := by
  have hback := h.unlease [frame] rest houtbox
  simp only [List.flatMap_singleton, List.map_singleton, List.sum_singleton] at hback
  apply Books.dropItems
  rwa [add_zero]

theorem Books.requeueSome {back rest : List (Frame B)} (h : Books 0 0 s) (houtbox : s.outbox.Perm (back ++ rest)) :
    Books 0 0 (s.requeueSome J L back rest) := by
  apply Books.requeueFrames
  rw [map_seq_readBack]
  exact h.unlease back rest houtbox

/-- The order in which the frames wait is nothing to the accounts. -/
theorem Books.reorder {out : List (Frame B)} (h : Books 0 0 s) (houtbox : s.outbox.Perm out) :
    Books 0 0 { s with outbox := out } := by
  refine ⟨h.count, h.bytes, ?_, ?_, h.counted, h.exact, h.keys⟩
  · show s.inFlight = (out.map Frame.bytes).sum
    rw [h.leased, (houtbox.map Frame.bytes).sum_eq]
  · have hitems := Multiset.coe_eq_coe.mpr (houtbox.flatMap_right Frame.items)
    rw [← h.seqs]
    show Multiset.map Item.seq (s.bag + 0 + Multiset.ofList (s.written ++ out.flatMap Frame.items)) + 0 + _ =
      Multiset.map Item.seq (s.bag + 0 + Multiset.ofList (s.written ++ s.outbox.flatMap Frame.items)) + 0 + _
    rw [← Multiset.coe_add, ← Multiset.coe_add, hitems]
    rfl

theorem Books.moves {m : Move B} (h : Books 0 0 s) (hmoves : Moves J L s m s') : Books 0 0 s' := by
  cases hmoves with
  | act hstep => exact h.step hstep
  | answer hflush htaken =>
    apply h.sort hflush
    · rfl
    · exact htaken
  | wrote houtbox => exact (h.reorder houtbox).write rfl
  | lost houtbox => exact h.lose houtbox
  | requeue houtbox => exact h.requeueSome houtbox

theorem eases_sort {g : Flush B} {item : Item B} {rest : List (Item B)} (hflush : s.flush = some f)
    (hall : g.all = f.all) (htaken : g.taken = item :: rest) (answer : Gate) :
    Eases s { s with flush := some (Flush.sort g item rest answer) } := by
  refine ⟨⟨Nat.le_refl _, Nat.le_refl _, rfl, rfl, fun _ h => .inl h⟩, ?_⟩
  intro x hx
  rcases mem_buffered.mp hx with hx | hx | ⟨h, heq, hx⟩
  · exact mem_buffered.mpr (.inl hx)
  · exact mem_buffered.mpr (.inr (.inl hx))
  · cases heq
    have hperm := Multiset.coe_eq_coe.mp (Flush.all_sort g htaken answer)
    rw [hperm.mem_iff, hall] at hx
    exact mem_buffered.mpr (.inr (.inr ⟨f, hflush, hx⟩))

theorem eases_take (s : State B) : Eases s s.take := by
  refine ⟨⟨Nat.le_refl _, Nat.le_refl _, rfl, rfl, fun _ h => .inl h⟩, ?_⟩
  intro x hx
  rcases mem_buffered.mp hx with hx | hx | ⟨f, hf, hx⟩
  · cases hx
  · exact mem_buffered.mpr (.inr (.inl hx))
  · cases hf
    apply mem_buffered.mpr
    left
    simpa [Flush.all] using hx

/-- What the limits read does not change. -/
theorem eases_of_eq (hledger : s'.ledger = s.ledger) (hbuffered : s'.buffered = s.buffered) : Eases s s' := by
  simp only [ledger, Prod.mk.injEq] at hledger
  obtain ⟨⟨hcount, hbytes, hinFlight, -, -⟩, houtbox, -, htally, -, -⟩ := hledger
  refine ⟨⟨hcount.le, hbytes.le, hinFlight, houtbox, ?_⟩, ?_⟩
  · rw [htally]
    exact fun _ h => .inl h
  · rw [hbuffered]
    exact fun _ h => h

theorem Bounded.step {a : Act B} (h : Bounded J L s) (hbooks : Books 0 0 s)
    (hwithin : s.within J L (.act a) = true) (hstep : s.step J L a = some s') : Bounded J L s' := by
  have hsame : ∀ {s' : State B}, s'.ledger = s.ledger → s'.buffered = s.buffered → Bounded J L s' := fun hledger heq =>
    h.ease (eases_of_eq hledger heq)
  cases effect_of_step hstep with
  | push item => exact h.push hwithin
  | unpark functionId current => exact (h.ease (eases_unpark s functionId)).ease (eases_of_eq rfl rfl)
  | unready functionId => exact hsame rfl rfl
  | discard functionId => exact h.ease (eases_discard s functionId)
  | expireParked expired => exact h.ease (eases_expireParked s expired)
  | close => exact h.ease (eases_close s)
  | takeDrops => exact ⟨h.count, h.bytes, h.fits, h.accepted⟩
  | take => exact h.ease (eases_take s)
  | cached hflush htaken => exact h.ease (eases_sort hflush rfl htaken _)
  | asked hflush htaken =>
    apply h.ease
    apply eases_sort hflush
    · rfl
    · exact htaken
  | endFlush hflush => exact h.endFlush hbooks hflush hwithin
  | write => exact h.unlease _
  | disconnect => exact hsame rfl rfl
  | connect =>
    rw [connect_eq]
    apply Bounded.requeueSome
    · exact hsame rfl rfl
    · exact hwithin

theorem Bounded.moves {m : Move B} (h : Bounded J L s) (hbooks : Books 0 0 s) (hwithin : s.within J L m = true)
    (hmoves : Moves J L s m s') : Bounded J L s' := by
  cases hmoves with
  | act hstep => exact h.step hbooks hwithin hstep
  | answer hflush htaken =>
    apply h.ease
    apply eases_sort hflush
    · rfl
    · exact htaken
  | wrote => exact h.unlease _
  | lost => exact (h.unlease _).ease (eases_dropItems _ (by decide) _)
  | requeue => exact h.requeueSome hwithin

end State

/-- The buffer stays in its limits, and a flush sends what it took. -/
theorem buffer_within_limits {tr : List (Move B × Unit)} (hbatch : 1 ≤ L.batchItems)
    (hframe : frameOpen + frameClose ≤ L.frameBytes)
    (hrun : ((traffic J L).only fun s m => s.within J L m = true).Run State.start tr s) :
    s.buffered.length ≤ L.maxItems ∧
      (s.buffered.map Item.estimatedSize).sum + s.inFlight ≤ L.maxBytes ∧
      (∀ x ∈ s.buffered, J.json x ≤ L.frameBytes - frameOpen - frameClose) ∧
      (∀ d ∈ s.tally, d.2.2 = .tooLarge → d.1 = none) ∧
      ∀ f, s.flush = some f →
        (∀ frame ∈ frames J L f.sendable, frame.items.length ≤ L.batchItems ∧ frame.length J ≤ L.frameBytes) ∧
          (frames J L f.sendable).flatMap Frame.items = f.sendable := by
  have hinvariant : s.Books 0 0 ∧ s.Bounded J L := by
    refine hrun.invariant (I := fun s => s.Books 0 0 ∧ s.Bounded J L)
      ⟨State.Books.start, State.Bounded.start J L⟩ ?_
    intro s m r s' ⟨hbooks, hbounded⟩ ⟨hwithin, hmoves⟩
    exact ⟨hbooks.moves hmoves, hbounded.moves hbooks hwithin hmoves⟩
  obtain ⟨hbooks, hbounded⟩ := hinvariant
  have hcount := hbooks.count
  have hbytes := hbooks.bytes
  rw [add_zero] at hcount hbytes
  rw [State.bag, State.total_coe] at hbytes
  refine ⟨?_, ?_, ?_, hbounded.accepted, ?_⟩
  · exact Nat.le_trans (Nat.le_of_eq hcount.symm) hbounded.count
  · rw [← hbytes]
    exact hbounded.bytes
  · exact fun x hx => Nat.le_trans (hbounded.fits x hx) (Nat.min_le_left _ _)
  · intro f hflush
    have hsendable : ∀ x ∈ f.sendable, J.json x ≤ largestItem L := by
      intro x hx
      apply hbounded.fits
      apply State.mem_buffered.mpr
      exact .inr (.inr ⟨f, hflush, by simp [Flush.all, hx]⟩)
    refine ⟨?_, frames_items_of_fits hsendable⟩
    intro frame hmem
    obtain ⟨hitems, hlength⟩ := fill_within hbatch hframe [] 0 f.sendable (Nat.zero_le _) (by simp) frame hmem
    rw [fill_length [] 0 f.sendable (by simp) frame hmem] at hlength
    exact ⟨hitems, hlength⟩

/-! ### An item that grows -/

def exampleEmit (observer : String) : Item Unit := { exampleItem with matched := [observer], emitted := true }

def exampleMove (J : Wire Unit) (L : Limits) (s : State Unit) : Move Unit → Option (State Unit × Unit)
  | .act a => (s.step J L a).map (·, ())
  | _ => none

theorem moves_of_exampleMove {J : Wire Unit} {L : Limits} {s s' : State Unit} {m : Move Unit} {r : Unit}
    (h : exampleMove J L s m = some (s', r)) : Moves J L s m s' := by
  cases m with
  | act a =>
    obtain ⟨s'', hstep, heq⟩ := Option.map_eq_some_iff.mp h
    cases heq
    exact .act hstep
  | answer => cases h
  | wrote => cases h
  | lost => cases h
  | requeue => cases h

/-- An event emitted to two observers, sent and requeued. -/
theorem buffer_within_limits_requeued :
    ∃ tr s, ((traffic exampleWire exampleLimits).only fun s m =>
        s.within exampleWire exampleLimits m = true).Run State.start tr s ∧
      s.items.map Item.matched = [["o", "p"]] ∧
      (s.buffered.map Item.estimatedSize).sum + s.inFlight ≤ exampleLimits.maxBytes := by
  have hexec : ∃ tr s, Machine.exec
      (fun s m => if s.within exampleWire exampleLimits m then exampleMove exampleWire exampleLimits s m else none)
      State.start ([.connect, .unpark "f" true, .push (exampleEmit "o"), .push (exampleEmit "p"), .take, .gate .send,
        .endFlush, .disconnect, .connect].map Move.act) = some (tr, s) ∧ s.items.map Item.matched = [["o", "p"]] :=
    ⟨_, _, rfl, rfl⟩
  obtain ⟨tr, s, hexec, hmatched⟩ := hexec
  have hrun := Machine.Run.of_exec
    (M := (traffic exampleWire exampleLimits).only fun s m => s.within exampleWire exampleLimits m = true) (by
    intro s m s' r h
    split at h
    · rename_i hwithin
      exact ⟨hwithin, moves_of_exampleMove h⟩
    · cases h) hexec
  exact ⟨tr, s, hrun, hmatched, (buffer_within_limits (by decide) (by decide) hrun).2.1⟩

/-- Here only the observers make a difference to the length of an item. -/
def listedWire : Wire Unit where
  json := fun item => 250 + Item.listed item.matched
  reread := some

def narrowLimits : Limits where
  maxItems := 8
  maxBytes := 275
  batchItems := 4
  frameBytes := 311

/-- The second observer's emit joins the item, which is then over the byte bound and too large for a frame. -/
theorem joined_emit_outgrows :
    (∃ tr s, (traffic listedWire narrowLimits).Run State.start tr s ∧
        narrowLimits.maxBytes < (s.buffered.map Item.estimatedSize).sum + s.inFlight ∧
        ¬ ∀ x ∈ s.buffered, listedWire.json x ≤ narrowLimits.frameBytes - frameOpen - frameClose) ∧
      ∃ tr s, (traffic listedWire narrowLimits).Run State.start tr s ∧
        ¬ ∀ d ∈ s.tally, d.2.2 = .tooLarge → d.1 = none := by
  have hpushed : ∃ tr s, Machine.exec (exampleMove listedWire narrowLimits) State.start
      ([.push (exampleEmit "observer1"), .push (exampleEmit "observer2")].map Move.act) = some (tr, s) ∧
        (s.buffered.map Item.estimatedSize = [282] ∧ s.inFlight = 0 ∧ s.buffered.map listedWire.json = [274]) :=
    ⟨_, _, rfl, rfl, rfl, rfl⟩
  have hflushed : ∃ tr s, Machine.exec (exampleMove listedWire narrowLimits) State.start
      ([.connect, .unpark "f" true, .push (exampleEmit "observer1"), .push (exampleEmit "observer2"), .take,
        .gate .send, .endFlush].map Move.act) = some (tr, s) ∧ s.tally = [(some 1, ("f", .tooLarge))] :=
    ⟨_, _, rfl, rfl⟩
  constructor
  · obtain ⟨tr, s, hexec, hsizes, hinFlight, hjson⟩ := hpushed
    refine ⟨tr, s, Machine.Run.of_exec (fun h => moves_of_exampleMove h) hexec, ?_, ?_⟩
    · rw [hsizes, hinFlight]
      decide
    · intro hfits
      have hall : ∀ n ∈ s.buffered.map listedWire.json, n ≤ 270 := by
        intro n hn
        obtain ⟨x, hx, rfl⟩ := List.mem_map.mp hn
        exact hfits x hx
      rw [hjson] at hall
      simp at hall
  · obtain ⟨tr, s, hexec, htally⟩ := hflushed
    refine ⟨tr, s, Machine.Run.of_exec (fun h => moves_of_exampleMove h) hexec, ?_⟩
    intro haccepted
    cases haccepted _ (htally ▸ List.mem_singleton_self _) rfl

end Iii.Reporter
