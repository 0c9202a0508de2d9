import Iii.Owner.Entries

/-! The revisions of a function's observers.

A message counts the revision of the live entry up by one, so what is owed is that an entry starts where the last one
stopped. The revision of a dropped entry is in the hands of the call that dropped it until `keep_revision` puts it
aside. An entry made before that starts from the beginning, and its owner hears of revisions it has heard of
(`revisions_not_ascending`). In the runs in which no entry is made meanwhile they ascend (`revisions_ascend`). -/
namespace Iii.Entries
open Lib
open Iii.Owner (Conn FnKey Flags)

variable {fn : ObserverRef → FnKey} {s s' : State} {t : Task} {a : Act} {news : List Task} {key : FnKey}

/-- At most `MAX_KEPT_REVISIONS` functions have a kept revision. -/
def State.FewKept (s : State) : Prop := s.revisions.length ≤ maxKeptRevisions

/-- The call is about to keep a revision of the function. -/
def Task.isKeeping (key : FnKey) : Task → Bool
  | .keepRevision key' _ => key' = key
  | _ => false

/-- An entry is made only when no call is about to keep the revision of the function's last one. -/
def HandedOn (s : State) (t : Task) (others : Multiset Task) : Prop :=
  match t with
  | .find key _ => s.byFunction key = none → ∀ u ∈ others, u.isKeeping key = false
  | _ => True

instance (s : State) (t : Task) (others : Multiset Task) : Decidable (HandedOn s t others) := by
  cases t <;> unfold HandedOn <;> infer_instance

instance (s : State) : Decidable s.FewKept := inferInstanceAs (Decidable (_ ≤ _))

/-! ### One function -/

/-- What the state says of one function, with the revisions of the messages about it. -/
structure Slot where
  live : Option Nat
  entries : List FunctionEntry
  kept : Option Nat
  told : List Nat

def State.slot (s : State) (key : FnKey) : Slot where
  live := s.byFunction key
  entries := s.entries key
  kept := Assoc.get? s.revisions key
  told := ((s.sent.map (·.2)).filter fun m => m.key = key).map Message.revision

/-- The revision that a call is about to keep. -/
def Task.keeps (key : FnKey) : Task → Multiset Nat
  | .keepRevision key' revision => if key' = key then {revision} else 0
  | _ => 0

def pending (key : FnKey) (ts : Multiset Task) : Multiset Nat := (ts.map (Task.keeps key)).sum

/-- `f` leaves alone what the revisions depend on. -/
def Keeps (f : FunctionEntry → FunctionEntry) : Prop :=
  ∀ e, (f e).dead = e.dead ∧ (f e).sync = e.sync ∧ (f e).announced = e.announced

/-- What an action does to the slot of a function, and the revision it leaves to be kept. -/
inductive Moves (key : FnKey) (slot : Slot) (t : Task) : Slot → Multiset Nat → Prop where
  | stay (ht : t.keeps key = 0) : Moves key slot t slot 0
  | touch {i : Nat} {f : FunctionEntry → FunctionEntry} (ht : t.keeps key = 0) (hf : Keeps f) :
      Moves key slot t { slot with entries := slot.entries.modify i f } 0
  | unannounce (i : Nat) (ht : t.keeps key = 0) :
      Moves key slot t
        { slot with
          entries := slot.entries.modify i fun e =>
            { e with announced := false, sync := { e.sync with announcedTo := none } } } 0
  | make {job : Job} (ht : t = .find key job) (hlive : slot.live = none) :
      Moves key slot t
        ⟨some slot.entries.length, slot.entries ++ [.startingAt (slot.kept.getD 0)], none, slot.told⟩ 0
  | drop {i : Nat} {e : FunctionEntry} (ht : t.keeps key = 0) (hlive : slot.live = some i)
      (he : slot.entries[i]? = some e) (hunused : e.isUnused = true) :
      Moves key slot t
        { slot with live := none, entries := slot.entries.modify i fun e => { e with dead := true } }
        (if e.sync.revision > 0 then {e.sync.revision} else 0)
  | keep {revision : Nat} (ht : t = .keepRevision key revision) :
      Moves key slot t { slot with kept := some revision } 0
  | tell {i : Nat} {e : FunctionEntry} {f : FunctionEntry → FunctionEntry} (ht : t.keeps key = 0)
      (he : slot.entries[i]? = some e) (hlive : e.dead = false ∨ e.sync.announcedTo.isSome)
      (hf : (f e).dead = e.dead ∧ (f e).sync.revision = e.sync.revision + 1)
      (hannounced : e.announced = e.sync.announcedTo.isSome → (f e).announced = (f e).sync.announcedTo.isSome) :
      Moves key slot t
        { slot with entries := slot.entries.modify i f, told := slot.told ++ [e.sync.revision + 1] } 0

/-- The next entry starts where the last one stopped. -/
structure Continues (slot : Slot) (pending : Multiset Nat) : Prop where
  live : ∀ i, slot.live = some i → pending = 0 ∧
    ∃ e, slot.entries[i]? = some e ∧ e.dead = false ∧ ∀ r ∈ slot.told, r ≤ e.sync.revision
  dropped : slot.live = none →
    (pending = 0 ∧ ∀ r ∈ slot.told, r ≤ slot.kept.getD 0) ∨ ∃ last, pending = {last} ∧ ∀ r ∈ slot.told, r ≤ last
  only : ∀ (i : Nat) (e : FunctionEntry), slot.entries[i]? = some e → e.dead = false → slot.live = some i
  silent : ∀ (i : Nat) (e : FunctionEntry), slot.entries[i]? = some e → e.dead = true → e.sync.announcedTo = none
  announced : ∀ (i : Nat) (e : FunctionEntry), slot.entries[i]? = some e → e.announced = e.sync.announcedTo.isSome
  ascending : slot.told.Pairwise (· < ·)

theorem Continues.new : Continues ⟨none, [], none, []⟩ 0 where
  live := nofun
  dropped := fun _ => .inl ⟨rfl, nofun⟩
  only := nofun
  silent := nofun
  announced := nofun
  ascending := .nil

section Steps
variable {slot slot' : Slot} {rest kept : Multiset Nat}

/-- An entry changed in a way that the revisions do not see. -/
theorem Continues.modify (h : Continues slot rest) (i : Nat) {f : FunctionEntry → FunctionEntry}
    (hdead : ∀ e, (f e).dead = e.dead) (hrevision : ∀ e, (f e).sync.revision = e.sync.revision)
    (hto : ∀ e, e.sync.announcedTo = none → (f e).sync.announcedTo = none)
    (hannounced : ∀ e, e.announced = e.sync.announcedTo.isSome → (f e).announced = (f e).sync.announcedTo.isSome) :
    Continues { slot with entries := slot.entries.modify i f } rest where
  live := by
    intro j hj
    obtain ⟨hrest, e, he, hlive, htold⟩ := h.live j hj
    refine ⟨hrest, _, getElem?_modify_some.mpr ⟨e, he, rfl⟩, ?_⟩
    split
    · exact ⟨(hdead e).trans hlive, fun r hr => (htold r hr).trans_eq (hrevision e).symm⟩
    · exact ⟨hlive, htold⟩
  dropped := h.dropped
  only := by
    intro j e' he' hlive
    obtain ⟨e, he, rfl⟩ := getElem?_modify_some.mp he'
    split at hlive
    · exact h.only j e he ((hdead e).symm.trans hlive)
    · exact h.only j e he hlive
  silent := by
    intro j e' he' hgone
    obtain ⟨e, he, rfl⟩ := getElem?_modify_some.mp he'
    split at hgone
    · rw [if_pos ‹_›]
      exact hto e (h.silent j e he ((hdead e).symm.trans hgone))
    · rw [if_neg ‹_›]
      exact h.silent j e he hgone
  announced := by
    intro j e' he'
    obtain ⟨e, he, rfl⟩ := getElem?_modify_some.mp he'
    split
    · exact hannounced e (h.announced j e he)
    · exact h.announced j e he
  ascending := h.ascending

theorem Continues.make (h : Continues slot 0) (hlive : slot.live = none) :
    Continues ⟨some slot.entries.length, slot.entries ++ [.startingAt (slot.kept.getD 0)], none, slot.told⟩ 0 := by
  have htold : ∀ r ∈ slot.told, r ≤ slot.kept.getD 0 := by
    rcases h.dropped hlive with ⟨-, htold⟩ | ⟨last, hlast, -⟩
    · exact htold
    · exact absurd hlast.symm (Multiset.singleton_ne_zero last)
  have hentry : ∀ {j e}, (slot.entries ++ [.startingAt (slot.kept.getD 0)])[j]? = some e →
      slot.entries[j]? = some e ∨ j = slot.entries.length ∧ e = .startingAt (slot.kept.getD 0) := by
    intro j e he
    rw [List.getElem?_append] at he
    split at he
    · exact .inl he
    · rw [List.getElem?_singleton] at he
      split at he
      · exact .inr ⟨by omega, (Option.some.inj he).symm⟩
      · cases he
  refine ⟨?_, nofun, ?_, ?_, ?_, h.ascending⟩
  · rintro _ ⟨⟩
    exact ⟨rfl, _, List.getElem?_concat_length, rfl, htold⟩
  · intro j e he hdead
    rcases hentry he with he | ⟨rfl, -⟩
    · have hsome := h.only j e he hdead
      rw [hlive] at hsome
      cases hsome
    · rfl
  · intro j e he hdead
    rcases hentry he with he | ⟨-, rfl⟩
    · exact h.silent j e he hdead
    · cases hdead
  · intro j e he
    rcases hentry he with he | ⟨-, rfl⟩
    · exact h.announced j e he
    · rfl

theorem Continues.drop (h : Continues slot rest) {i : Nat} {e : FunctionEntry} (hlive : slot.live = some i)
    (he : slot.entries[i]? = some e) (hunused : e.isUnused = true) :
    Continues { slot with live := none, entries := slot.entries.modify i fun e => { e with dead := true } }
      ((if e.sync.revision > 0 then {e.sync.revision} else 0) + rest) := by
  obtain ⟨rfl, e', he', -, htold⟩ := h.live i hlive
  obtain rfl : e = e' := Option.some.inj (he.symm.trans he')
  rw [Multiset.add_zero]
  have hquiet : e.sync.announcedTo = none := by
    have hannounced := h.announced i e he
    simp only [FunctionEntry.isUnused, Bool.and_eq_true, Bool.not_eq_true'] at hunused
    rw [hunused.2] at hannounced
    exact Option.not_isSome_iff_eq_none.mp (Bool.eq_false_iff.mp hannounced.symm)
  refine ⟨nofun, fun _ => ?_, ?_, ?_, ?_, h.ascending⟩
  · split
    · exact .inr ⟨e.sync.revision, rfl, htold⟩
    · rename_i hzero
      exact .inl ⟨rfl, fun r hr => (htold r hr).trans (by omega)⟩
  · intro j e' he' hdead
    obtain ⟨e₁, he₁, rfl⟩ := getElem?_modify_some.mp he'
    split at hdead
    · cases hdead
    · rename_i hne
      exact absurd (Option.some.inj (hlive.symm.trans (h.only j e₁ he₁ hdead))) hne
  · intro j e' he' hdead
    obtain ⟨e₁, he₁, rfl⟩ := getElem?_modify_some.mp he'
    by_cases heq : i = j
    · subst heq
      rw [if_pos rfl]
      obtain rfl : e = e₁ := Option.some.inj (he.symm.trans he₁)
      exact hquiet
    · rw [if_neg heq] at hdead ⊢
      exact h.silent j e₁ he₁ hdead
  · intro j e' he'
    obtain ⟨e₁, he₁, rfl⟩ := getElem?_modify_some.mp he'
    split <;> exact h.announced j e₁ he₁

theorem Continues.keep {revision : Nat} (h : Continues slot ({revision} + rest)) :
    Continues { slot with kept := some revision } rest := by
  have hlive : slot.live = none := by
    cases hslot : slot.live with
    | none => rfl
    | some i =>
      have hzero := (h.live i hslot).1
      rw [Multiset.singleton_add] at hzero
      exact absurd hzero (Multiset.cons_ne_zero)
  have hlast : rest = 0 ∧ ∀ r ∈ slot.told, r ≤ revision := by
    rcases h.dropped hlive with ⟨hzero, -⟩ | ⟨last, heq, htold⟩
    · rw [Multiset.singleton_add] at hzero
      exact absurd hzero (Multiset.cons_ne_zero)
    · rw [Multiset.singleton_add] at heq
      obtain ⟨rfl, hrest⟩ := (Multiset.singleton_eq_cons_iff _).mp heq.symm
      exact ⟨hrest, htold⟩
  refine ⟨fun i hi => ?_, fun _ => .inl hlast, h.only, h.silent, h.announced, h.ascending⟩
  rw [hlive] at hi
  cases hi

theorem Continues.tell (h : Continues slot rest) {i : Nat} {e : FunctionEntry} {f : FunctionEntry → FunctionEntry}
    (he : slot.entries[i]? = some e) (hlive : e.dead = false ∨ e.sync.announcedTo.isSome)
    (hf : (f e).dead = e.dead ∧ (f e).sync.revision = e.sync.revision + 1)
    (hannounced : e.announced = e.sync.announcedTo.isSome → (f e).announced = (f e).sync.announcedTo.isSome) :
    Continues { slot with entries := slot.entries.modify i f, told := slot.told ++ [e.sync.revision + 1] } rest := by
  have hthere : e.dead = false := by
    rcases hlive with hlive | hto
    · exact hlive
    · refine Bool.eq_false_iff.mpr fun hdead => ?_
      rw [h.silent i e he hdead] at hto
      cases hto
  have hslot := h.only i e he hthere
  obtain ⟨hrest, e', he', -, htold⟩ := h.live i hslot
  obtain rfl : e = e' := Option.some.inj (he.symm.trans he')
  have hentry : ∀ {j e'}, (slot.entries.modify i f)[j]? = some e' →
      j = i ∧ e' = f e ∨ slot.entries[j]? = some e' := by
    intro j e' he'
    obtain ⟨e₁, he₁, rfl⟩ := getElem?_modify_some.mp he'
    split
    · rename_i heq
      subst heq
      rw [Option.some.inj (he₁.symm.trans he)]
      exact .inl ⟨rfl, rfl⟩
    · exact .inr he₁
  refine ⟨?_, ?_, ?_, ?_, ?_, ?_⟩
  · intro j hj
    obtain rfl : i = j := Option.some.inj (hslot.symm.trans hj)
    refine ⟨hrest, f e, getElem?_modify_some.mpr ⟨e, he, if_pos rfl⟩, hf.1.trans hthere, fun r hr => ?_⟩
    rw [hf.2]
    rcases List.mem_append.mp hr with hr | hr
    · exact Nat.le_succ_of_le (htold r hr)
    · exact (List.mem_singleton.mp hr).le
  · intro hnone
    cases hslot.symm.trans hnone
  · intro j e' he' hdead
    rcases hentry he' with ⟨rfl, -⟩ | he'
    · exact hslot
    · exact h.only j e' he' hdead
  · intro j e' he' hdead
    rcases hentry he' with ⟨-, rfl⟩ | he'
    · rw [hf.1, hthere] at hdead
      cases hdead
    · exact h.silent j e' he' hdead
  · intro j e' he'
    rcases hentry he' with ⟨-, rfl⟩ | he'
    · exact hannounced (h.announced i e he)
    · exact h.announced j e' he'
  · refine List.pairwise_append.mpr ⟨h.ascending, List.pairwise_singleton .., fun r hr r' hr' => ?_⟩
    rw [List.mem_singleton.mp hr']
    exact Nat.lt_succ_of_le (htold r hr)

/-- Every action keeps it, where no entry is made while a revision is to be kept. -/
theorem Moves.continues (h : Moves key slot t slot' kept) (hcontinues : Continues slot (t.keeps key + rest))
    (hmake : ∀ job, t = .find key job → slot.live = none → rest = 0) : Continues slot' (kept + rest) := by
  cases h with
  | stay ht =>
    rwa [ht] at hcontinues
  | touch ht hf =>
    rw [ht] at hcontinues
    refine hcontinues.modify _ (fun e => (hf e).1) (fun e => by rw [(hf e).2.1]) (fun e he => ?_) (fun e he => ?_)
    · rw [(hf e).2.1, he]
    · rw [(hf e).2.2, (hf e).2.1, he]
  | unannounce i ht =>
    rw [ht] at hcontinues
    exact hcontinues.modify i (fun _ => rfl) (fun _ => rfl) (fun _ _ => rfl) (fun _ _ => rfl)
  | @make job ht hlive =>
    obtain rfl := hmake job ht hlive
    subst ht
    exact hcontinues.make hlive
  | drop ht hlive he hunused =>
    rw [ht, Multiset.zero_add] at hcontinues
    exact hcontinues.drop hlive he hunused
  | keep ht =>
    subst ht
    rw [Task.keeps, if_pos rfl] at hcontinues
    rw [Multiset.zero_add]
    exact hcontinues.keep
  | tell ht he hlive hf hannounced =>
    rw [ht] at hcontinues
    exact hcontinues.tell he hlive hf hannounced

end Steps

/-! ### Every action -/

theorem slot_modify (s : State) (key' : FnKey) (i : Nat) (f : FunctionEntry → FunctionEntry) (key : FnKey) :
    (s.modify key' i f).slot key =
      if key' = key then { s.slot key with entries := (s.slot key).entries.modify i f } else s.slot key := by
  unfold State.slot State.modify
  dsimp only
  split
  · rename_i heq
    subst heq
    rw [Function.update_self]
  · rename_i hne
    rw [Function.update_of_ne (Ne.symm hne)]

theorem slot_live (s : State) (key' : FnKey) (live : Option Nat) (key : FnKey) :
    ({ s with byFunction := Function.update s.byFunction key' live } : State).slot key =
      if key' = key then { s.slot key with live := live } else s.slot key := by
  unfold State.slot
  dsimp only
  split
  · rename_i heq
    subst heq
    rw [Function.update_self]
  · rename_i hne
    rw [Function.update_of_ne (Ne.symm hne)]

theorem slot_notify (s : State) (w : Conn) (m : Message) (key : FnKey) :
    (s.notify w m).slot key =
      if m.key = key then { s.slot key with told := (s.slot key).told ++ [m.revision] } else s.slot key := by
  unfold State.slot State.notify
  split <;> simp [*]

@[simp] theorem slot_setFlags (s : State) (o : ObserverRef) (change : Flags → Flags) (key : FnKey) :
    (s.setFlags o change).slot key = s.slot key := rfl

@[simp] theorem slot_announce (s : State) (o : ObserverRef) (w : Conn) (revision : Nat) (key : FnKey) :
    (s.announce o w revision).slot key = s.slot key := rfl

theorem slot_announceAll (observers : List ObserverRef) (s : State) (w : Conn) (revision : Nat) (key : FnKey) :
    (observers.foldl (fun s o => s.announce o w revision) s).slot key = s.slot key := by
  induction observers generalizing s with
  | nil => rfl
  | cons o observers ih => exact ih _

variable {key' : FnKey} {e : FunctionEntry}

theorem Moves.modify (ht : t.keeps key = 0) {i : Nat} {f : FunctionEntry → FunctionEntry} (hf : Keeps f) :
    Moves key (s.slot key) t ((s.modify key' i f).slot key) 0 := by
  rw [slot_modify]
  split
  · exact .touch ht hf
  · exact .stay ht

/-- The entry counts up and the owner hears of it. -/
theorem Moves.told (ht : t.keeps key = 0) {s₁ : State} {i : Nat} {f : FunctionEntry → FunctionEntry} {w : Conn}
    {m : Message} (hs₁ : s₁.slot key = (s.modify key' i f).slot key) (he : s.entry? key' i = some e)
    (hm : m.key = key' ∧ m.revision = e.sync.revision + 1) (hlive : e.dead = false ∨ e.sync.announcedTo.isSome)
    (hf : (f e).dead = e.dead ∧ (f e).sync.revision = e.sync.revision + 1)
    (hannounced : e.announced = e.sync.announcedTo.isSome → (f e).announced = (f e).sync.announcedTo.isSome) :
    Moves key (s.slot key) t ((s₁.notify w m).slot key) 0 := by
  rw [slot_notify, hm.1, hm.2, hs₁, slot_modify]
  split
  · rename_i heq
    subst heq
    exact .tell ht he hlive hf hannounced
  · exact .stay ht

theorem entryFor_moves (key' : FnKey) (job : Job) :
    Moves key (s.slot key) (.find key' job) ((s.entryFor key').1.slot key) 0 := by
  unfold State.entryFor
  split
  · exact .stay rfl
  · rename_i hlive
    unfold State.slot
    dsimp only
    by_cases heq : key' = key
    · subst heq
      rw [Function.update_self, Function.update_self, Assoc.get?_erase, if_pos rfl]
      exact .make rfl hlive
    · rw [Function.update_of_ne (Ne.symm heq), Function.update_of_ne (Ne.symm heq), Assoc.get?_erase, if_neg heq]
      exact .stay rfl

theorem dropEntryIfUnused_moves (ht : t.keeps key = 0) (key' : FnKey) :
    Moves key (s.slot key) t ((s.dropEntryIfUnused key').1.slot key)
      ((s.dropEntryIfUnused key').2.map (Task.keeps key)).sum := by
  unfold State.dropEntryIfUnused
  split
  · exact .stay ht
  · rename_i i hlive
    split
    · exact .stay ht
    · rename_i e he
      split
      · rename_i hunused
        dsimp only
        rw [slot_live, slot_modify]
        by_cases heq : key' = key
        · subst heq
          rw [if_pos rfl, if_pos rfl]
          have hentry : (s.slot key').entries[i]? = some e := he
          have hmove := Moves.drop ht hlive hentry hunused
          split <;> simpa [Task.keeps, *] using hmove
        · rw [if_neg heq, if_neg heq]
          split <;> simpa [Task.keeps, heq] using Moves.stay ht
      · exact .stay ht

theorem evict_few {revisions : List (FnKey × Nat)} (h : revisions.length ≤ maxKeptRevisions)
    (order : List (FnKey × Nat)) : (State.evict revisions order).1 = revisions := by
  cases order with
  | nil => rfl
  | cons m order =>
    obtain ⟨oldest, kept⟩ := m
    rw [State.evict, if_neg (not_lt.mpr h)]

theorem attachToFunction_moves (ht : t.keeps key = 0) {i : Nat} (he : s.entry? key' i = some e)
    (hlive : e.dead = false) (observer : ObserverRef) (owner : Option Owner) :
    Moves key (s.slot key) t ((s.attachToFunction key' i e observer owner).slot key) 0 := by
  unfold State.attachToFunction
  split
  · rw [slot_setFlags]
    exact .modify ht fun _ => ⟨rfl, rfl, rfl⟩
  · exact .told ht (slot_announce ..) he ⟨rfl, rfl⟩ (.inl hlive) ⟨rfl, rfl⟩ id

theorem functionRegistered_moves (ht : t.keeps key = 0) {i : Nat} (he : s.entry? key' i = some e)
    (hlive : e.dead = false) (worker : Conn) (localDispatch : Bool) (owner : Option Owner) :
    Moves key (s.slot key) t ((s.functionRegistered key' i e worker localDispatch owner).1.slot key)
      ((s.functionRegistered key' i e worker localDispatch owner).2.map (Task.keeps key)).sum := by
  unfold State.functionRegistered
  split
  · exact .stay ht
  · exact .told ht (slot_announceAll ..) he ⟨rfl, rfl⟩ (.inl hlive) ⟨rfl, rfl⟩ fun _ => rfl

theorem withdraw_moves (ht : t.keeps key = 0) {i : Nat} (he : s.entry? key' i = some e) (observer : ObserverRef) :
    Moves key (s.slot key) t ((s.withdraw key' i e observer).slot key) 0 := by
  unfold State.withdraw
  dsimp only
  split
  · rename_i hto
    split
    · exact .stay ht
    · refine .told (s := s) (f := fun e' => { e' with sync := { e'.sync with revision := e.sync.revision + 1 } }) ht ?_
        he ⟨rfl, rfl⟩ (.inr (Option.isSome_of_eq_some hto)) ⟨rfl, rfl⟩ id
      rw [slot_modify, slot_modify, slot_setFlags]
  · exact .stay ht

theorem keepRevision_moves (key' : FnKey) (revision : Nat) :
    Moves key (s.slot key) (.keepRevision key' revision)
      ({ s with revisions := Assoc.insert s.revisions key' revision }.slot key) 0 := by
  unfold State.slot
  dsimp only
  rw [Assoc.get?_insert]
  split
  · rename_i heq
    subst heq
    exact .keep rfl
  · rename_i hne
    exact .stay (if_neg hne)

theorem slot_trim (hfew : s.FewKept) (key' : FnKey) (revision : Nat) (key : FnKey) :
    (s.trim key' revision).slot key = s.slot key := by
  unfold State.slot State.trim
  dsimp only
  rw [evict_few hfew]

theorem step_moves {next : State × List Task} (hfew : s.FewKept) (h : s.step fn t a = some next) :
    Moves key (s.slot key) t (next.1.slot key) (next.2.map (Task.keeps key)).sum := by
  cases t with
  | find key' job =>
    cases a with
    | go =>
      cases h
      exact entryFor_moves key' job
    | _ => cases h
  | hold key' i job =>
    unfold State.step at h
    dsimp only at h
    split at h
    · rename_i e he
      split at h
      · cases h
        exact .stay rfl
      · cases h
        exact .modify rfl fun _ => ⟨rfl, rfl, rfl⟩
    · rename_i e observer tried he
      split at h
      · cases h
        exact .stay rfl
      · rename_i hlive
        cases h
        exact attachToFunction_moves rfl he (by simpa using (Option.ite_none_left_eq_some.mp hlive).1) observer _
    · rename_i e worker localDispatch tried he
      split at h
      · cases h
        exact .stay rfl
      · rename_i hlive
        cases h
        exact functionRegistered_moves rfl he (by simpa using (Option.ite_none_left_eq_some.mp hlive).1) worker localDispatch _
    · cases h
  | dropEntryIfUnused key' =>
    cases a with
    | go =>
      cases h
      exact dropEntryIfUnused_moves rfl key'
    | busy =>
      cases h
      exact .stay rfl
    | _ => cases h
  | keepRevision key' revision =>
    cases a with
    | go =>
      cases h
      exact keepRevision_moves key' revision
    | _ => cases h
  | trim key' revision =>
    cases a with
    | go =>
      cases h
      dsimp only
      rw [slot_trim hfew]
      exact .stay rfl
    | _ => cases h
  | clearDescriptor key' =>
    cases a with
    | go =>
      unfold State.step at h
      dsimp only at h
      split at h
      · cases h
        exact .modify rfl fun _ => ⟨rfl, rfl, rfl⟩
      · cases h
        exact .stay rfl
    | _ => cases h
  | endRegistration key' i registered =>
    cases a with
    | go =>
      cases h
      dsimp only
      split
      · exact .stay rfl
      · exact .modify rfl fun _ => ⟨rfl, rfl, rfl⟩
    | _ => cases h
  | unannounce key' i registered =>
    cases a with
    | go =>
      cases h
      dsimp only
      rw [slot_modify]
      split
      · exact .unannounce i rfl
      · exact .stay rfl
    | _ => cases h
  | detach observer i =>
    cases a with
    | go =>
      cases h
      exact .modify rfl fun _ => ⟨rfl, rfl, rfl⟩
    | _ => cases h
  | withdraw observer i =>
    cases a with
    | go =>
      unfold State.step at h
      dsimp only at h
      split at h
      · rename_i e he
        cases h
        exact withdraw_moves rfl he observer
      · cases h
    | _ => cases h
  | reset key' observers registered =>
    cases observers with
    | nil =>
      cases a with
      | go =>
        cases h
        exact .stay rfl
      | _ => cases h
    | cons observer observers =>
      cases a with
      | check acked error =>
        cases h
        unfold State.resetObserver
        dsimp only
        split <;> exact .stay rfl
      | _ => cases h
  | update observer change =>
    cases a with
    | go =>
      cases h
      exact .stay rfl
    | _ => cases h
  | _ =>
    cases a with
    | go =>
      unfold State.step at h
      dsimp only at h
      split at h
      · cases h
        exact .stay rfl
      · cases h <;> exact .stay rfl
    | _ => cases h

/-! ### Runs -/

/-- The runs that the condition is about. -/
def orderly (fn : ObserverRef → FnKey) (flags : ObserverRef → Flags) : System (Config State Task) :=
  (pool fn).guarded (fun s t _ others => s.FewKept ∧ HandedOn s t others) (.new flags)

theorem pending_cons (key : FnKey) (t : Task) (ts : Multiset Task) :
    pending key (t ::ₘ ts) = t.keeps key + pending key ts := by
  rw [pending, Multiset.map_cons, Multiset.sum_cons, pending]

theorem pending_news (key : FnKey) (news : List Task) (ts : Multiset Task) :
    pending key (↑news + ts) = (news.map (Task.keeps key)).sum + pending key ts := by
  rw [pending, Multiset.map_add, Multiset.sum_add, Multiset.map_coe, Multiset.sum_coe, pending]

theorem pending_eq_zero {ts : Multiset Task} (h : ∀ t ∈ ts, t.isKeeping key = false) : pending key ts = 0 := by
  refine Multiset.sum_eq_zero fun kept hkept => ?_
  obtain ⟨t, ht, rfl⟩ := Multiset.mem_map.mp hkept
  cases t with
  | keepRevision => exact if_neg (of_decide_eq_false (h _ ht))
  | _ => rfl

theorem Task.isCall_keeps (h : t.isCall = true) : t.keeps key = 0 := by
  cases t <;> first | rfl | cases h

theorem continues_run {flags : ObserverRef → Flags} {c : Config State Task} (h : (orderly fn flags).Reachable c)
    (key : FnKey) : Continues (c.state.slot key) (pending key c.tasks) := by
  apply System.Reachable.invariant (I := fun c => Continues (c.state.slot key) (pending key c.tasks)) _ _ h
  · rintro c rfl
    exact .new
  · rintro c c' - hcontinues hstep
    cases hstep with
    | start ts hstart =>
      rwa [pending_cons, Task.isCall_keeps hstart, Multiset.zero_add]
    | exec ts hguard hexec =>
      obtain ⟨hfew, hhanded⟩ := hguard
      rw [pending_cons] at hcontinues
      rw [pending_news]
      refine (step_moves hfew hexec).continues hcontinues fun job ht hlive => ?_
      subst ht
      exact pending_eq_zero (hhanded hlive)

/-- **The revisions of a function ascend**: in the runs in which no entry is made while a call is about to keep the
revision of the function's last one, and in which at most `MAX_KEPT_REVISIONS` are kept, each message about a function
carries a greater revision than every earlier one. -/
theorem revisions_ascend {flags : ObserverRef → Flags} {c : Config State Task} (h : (orderly fn flags).Reachable c) :
    c.state.sent.Pairwise fun m m' => m.2.key = m'.2.key → m.2.revision < m'.2.revision := by
  refine List.pairwise_iff_forall_sublist.mpr fun {m m'} hsub hkey => ?_
  have hascending := (continues_run h m.2.key).ascending
  rw [State.slot, List.pairwise_map, List.pairwise_filter, List.pairwise_map] at hascending
  exact List.pairwise_iff_forall_sublist.mp hascending hsub (decide_eq_true rfl) (decide_eq_true hkey.symm)

/-! ### Where they go back -/

def connected : ObserverRef → Flags := fun _ => ⟨true, true, true, false, none, false, false, none, none⟩

def ofOrders : ObserverRef → FnKey := fun _ => ("default", "orders")

/-- The function is registered by connection `1` and gets an observer; the registration ends; the observer is disposed,
which drops the entry. -/
def dropped : List (Pool.Turn Task Act) :=
  [.start (.find ("default", "orders") (.functionRegistered 1 true)), .exec 0 .go, .exec 0 (.owner (some (some ⟨1, true⟩))),
    .start (.find ("default", "orders") (.attachToFunction 0)), .exec 0 .go, .exec 0 (.owner (some (some ⟨1, true⟩))),
    .start (.onFunctionChange ("default", "orders") false), .exec 0 .go, .exec 0 .go, .exec 0 .go, .exec 0 .go,
    .exec 0 (.check true none), .exec 0 .go, .exec 0 .go,
    .start (.withdrawFromOwner 0), .exec 0 .go, .exec 0 .go,
    .start (.detachFromFunction 0), .exec 0 .go, .exec 0 .go, .exec 0 .go]

/-- Connection `2` registers the function. -/
def registeredAgain : List (Pool.Turn Task Act) :=
  [.start (.find ("default", "orders") (.functionRegistered 2 true)), .exec 0 .go, .exec 0 (.owner (some (some ⟨2, true⟩)))]

/-- The revision is kept in time: the third message goes on from the second. -/
theorem revisions_ascend_dropped : ∃ c, (orderly ofOrders connected).Reachable c ∧
    c.state.sent.map (·.2.revision) = [1, 2, 3] ∧
    c.state.sent.Pairwise fun m m' => m.2.key = m'.2.key → m.2.revision < m'.2.revision := by
  have hrun := Pool.play_guarded (P := pool ofOrders) (C := fun s t _ others => s.FewKept ∧ HandedOn s t others)
    (fun _ => Task.isCall) (fun s t a => s.step ofOrders t a) (fun s t _ others => decide (s.FewKept ∧ HandedOn s t ↑others)) (.new connected)
    (dropped ++ .exec 0 .go :: registeredAgain) (fun _ _ h => h) (fun _ _ _ _ _ h => h)
    (fun _ _ _ _ => of_decide_eq_true) rfl
  exact ⟨_, hrun, rfl, revisions_ascend hrun⟩

/-- It is not: the new entry starts from the beginning. -/
theorem revisions_not_ascending : ¬ ∀ c, ((pool ofOrders).guarded (fun s _ _ _ => s.FewKept) (.new connected)).Reachable c →
    c.state.sent.Pairwise fun m m' => m.2.key = m'.2.key → m.2.revision < m'.2.revision := by
  intro h
  have hrun := Pool.play_guarded (P := pool ofOrders) (C := fun s _ _ _ => s.FewKept) (fun _ => Task.isCall)
    (fun s t a => s.step ofOrders t a) (fun s _ _ _ => decide s.FewKept) (.new connected) (dropped ++ registeredAgain) (fun _ _ h => h) (fun _ _ _ _ _ h => h)
    (fun _ _ _ _ => of_decide_eq_true) rfl
  exact absurd (h _ hrun) (by decide)

end Iii.Entries
