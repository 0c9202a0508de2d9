import Iii.Queue.Tasks

/-! Order in a grouped queue.

One `GroupedFifoWorker` serves a queue in fifo mode. Jobs of a busy group are popped,
held back in `skipped` and put back at the end of the pass. A group's jobs are never
handled two at a time. They also start in the order they were pushed as long as what is
held back stays ahead of what is waiting, and that is not always so: a skipped job goes
back to the front of the list, where new jobs enter, so it falls behind any later job
of its group that the pass left waiting; and when its group is freed while the pass
goes on, the pass itself starts a later one. -/
namespace Iii.Queue.Grouped
open Lib Store Tasks

/-! ### Runs of one worker -/

/-- Jobs in the order of an event, each with its group. -/
abbrev Log : Type := List (String × String)

/-- The jobs of one group, in the order of the log. -/
def onGroup (g : String) (log : Log) : List String := (log.filter fun e => e.2 = g).map (·.1)

/-- The job a handler is busy with. -/
def current : Stage → Option String
  | .handling job | .buryRem job _ | .buryPush job _ | .sleeping job => some job.id
  | .ackRem jobId | .ackDelete jobId | .nackRead jobId _ | .nackRem jobId _ _ | .nackSet jobId _ _
  | .nackAdd jobId _ | .buryDelete jobId => some jobId
  | .done => none

structure State where
  store : Store
  place : Place
  handlers : List Handler
  pushed : Log
  started : Log
  ended : Log

def State.empty : State := ⟨.empty, .tick, [], [], [], []⟩

/-- The worker of queue `q`, with room for `limit` groups. -/
def worker (q : String) (limit : Nat) (place : Place) : Worker := ⟨0, q, .grouped, limit, place⟩

/-- What is held back while the pass goes on. -/
def skipping : Place → List String
  | .popping skipped | .popped _ skipped | .reading _ skipped | .deciding _ skipped => skipped
  | _ => []

/-- What a run allows when a group is freed, and when a skipped job is put back. -/
structure Conditions where
  free : State → String → Prop
  putBack : State → String → Prop

/-- The handlers a worker spawns start their jobs. -/
def startedBy (spawned : List Handler) : Log :=
  spawned.flatMap fun h => (current h.stage).toList.map (·, h.group)

/-- A handler's last write ends its job: it is acknowledged or on the dead-letter list. -/
def endedBy (h : Handler) : Stage → Log
  | .done => (current h.stage).toList.map (·, h.group)
  | _ => []

inductive Step (C : Conditions) (q : String) (limit : Nat) : State → State → Prop
  | push (st : State) (job : Job) (hqueue : job.queue = q) (hid : Plain job.id)
      (hfresh : job.id ∉ st.pushed.map (·.1)) : Step C q limit st
      { st with store := pushJob job st.store, pushed := st.pushed ++ [(job.id, groupOf job)] }
  | worker (st : State) (configs : Configs) (now : Nat) (place : Place) (store : Store)
      (spawned : List Handler)
      (hstep : (worker q limit st.place).Step configs now st.handlers st.place st.store place store spawned)
      (hputBack : ∀ id rest, st.place = .returning (id :: rest) → C.putBack st id) : Step C q limit st
      { st with store, place, handlers := spawned ++ st.handlers
                started := st.started ++ startedBy spawned }
  | handler (st : State) (configs : Configs) (now : Nat) (a b : List Handler) (h : Handler) (stage : Stage)
      (store : Store) (acked : List String) (hsplit : st.handlers = a ++ h :: b)
      (hstep : h.stage.Step configs now h.queue h.inline st.store stage store acked) : Step C q limit st
      { st with store, handlers := a ++ { h with stage } :: b, ended := st.ended ++ endedBy h stage }
  | free (st : State) (a b : List Handler) (h : Handler) (hsplit : st.handlers = a ++ h :: b)
      (hdone : h.stage = .done) (hfree : C.free st h.group) : Step C q limit st
      { st with handlers := a ++ b }

def system (C : Conditions) (q : String) (limit : Nat) : System State where
  Init st := st = .empty
  Step := Step C q limit

/-- One job of a group at a time, and in the order they were pushed: what has started is a
beginning of what was pushed, and all of it but the last has ended. -/
def Orderly (st : State) : Prop :=
  ∀ g, onGroup g st.started <+: onGroup g st.pushed ∧
    (onGroup g st.started = onGroup g st.ended ∨ ∃ id, onGroup g st.started = onGroup g st.ended ++ [id])

/-- `a` was pushed before `b`. -/
def Before (log : Log) (a b : String) : Prop := [a, b].Sublist (log.map (·.1))

/-- No group is freed while a pass holds back a job of it, and no skipped job is put back
while a later job of its group is waiting. -/
def ordered (q : String) : Conditions where
  free st g := ∀ id ∈ skipping st.place, (id, g) ∉ st.pushed
  putBack st id := ∀ id' ∈ (lanes st.store q).waiting, ∀ g, (id, g) ∈ st.pushed → (id', g) ∈ st.pushed →
    Before st.pushed id' id

/-! ### Logs and groups -/

section Logs
variable {log : Log} {g : String}

theorem onGroup_append (g : String) (log log' : Log) :
    onGroup g (log ++ log') = onGroup g log ++ onGroup g log' := by
  rw [onGroup, List.filter_append, List.map_append]
  rfl

theorem mem_onGroup {id : String} : id ∈ onGroup g log ↔ (id, g) ∈ log := by
  unfold onGroup
  rw [List.mem_map]
  constructor
  · rintro ⟨e, he, rfl⟩
    obtain ⟨hmem, hg⟩ := List.mem_filter.mp he
    rw [← of_decide_eq_true hg]
    exact hmem
  · intro h
    exact ⟨(id, g), List.mem_filter.mpr ⟨h, by simp⟩, rfl⟩

theorem nodup_onGroup (h : (log.map (·.1)).Nodup) : (onGroup g log).Nodup :=
  (List.filter_sublist.map _).nodup h

theorem group_unique (h : (log.map (·.1)).Nodup) {id g g' : String} (hg : (id, g) ∈ log) (hg' : (id, g') ∈ log) :
    g = g' := by
  have := List.inj_on_of_nodup_map h hg hg' rfl
  exact (Prod.mk.inj this).2

/-- The ids of a list that belong to a group. -/
def select (log : Log) (g : String) (l : List String) : List String := l.filter fun id => (id, g) ∈ log

theorem select_append (l l' : List String) : select log g (l ++ l') = select log g l ++ select log g l' :=
  List.filter_append ..

theorem mem_select {l : List String} {id : String} : id ∈ select log g l ↔ id ∈ l ∧ (id, g) ∈ log := by
  unfold select
  rw [List.mem_filter, decide_eq_true_eq]

/-- A new entry does not move the ids the log already has. -/
theorem select_snoc {id g' : String} {l : List String} (h : id ∉ l) :
    select (log ++ [(id, g')]) g l = select log g l := by
  apply List.filter_congr
  intro x hx
  have hne : x ≠ id := fun h' => h (h' ▸ hx)
  simp [hne]

theorem onGroup_singleton (id g' : String) : onGroup g [(id, g')] = if g' = g then [id] else [] := by
  unfold onGroup
  by_cases h : g' = g <;> simp [h]

/-- The order of two jobs of one group is their order in the group. -/
theorem Before.onGroup {a b : String} (h : Before log a b) (hfresh : (log.map (·.1)).Nodup) (ha : (a, g) ∈ log)
    (hb : (b, g) ∈ log) : [a, b].Sublist (onGroup g log) := by
  obtain ⟨l, hl, hab⟩ := List.sublist_map_iff.mp h
  obtain ⟨⟨a', ga⟩, l, rfl⟩ : ∃ e l', l = e :: l' := by
    cases l with
    | nil => cases hab
    | cons e l' => exact ⟨e, l', rfl⟩
  obtain ⟨⟨b', gb⟩, l, rfl⟩ : ∃ e l', l = e :: l' := by
    cases l with
    | nil => cases hab
    | cons e l' => exact ⟨e, l', rfl⟩
  simp only [List.map_cons, List.cons.injEq] at hab
  obtain ⟨rfl, rfl, hl'⟩ := hab
  obtain rfl : l = [] := List.map_eq_nil_iff.mp hl'.symm
  have hga : ga = g := group_unique hfresh (hl.subset (by simp)) ha
  have hgb : gb = g := group_unique hfresh (hl.subset (by simp)) hb
  subst hga hgb
  have hfilter := hl.filter fun e => e.2 = gb
  simpa [Grouped.onGroup] using hfilter.map (·.1)

/-- In a list without repetition, what comes before `id` is in the part before it. -/
theorem mem_of_pair_sublist {α : Type} {x id : α} {l l' : List α} (hnodup : (l ++ id :: l').Nodup)
    (h : [x, id].Sublist (l ++ id :: l')) : x ∈ l := by
  obtain ⟨hl, hl', hdisjoint⟩ := List.nodup_append.mp hnodup
  have hid : id ∉ l := fun h => hdisjoint id h id (List.mem_cons_self ..) rfl
  have hid' : id ∉ l' := (List.nodup_cons.mp hl').1
  obtain ⟨s, s', hs, hsub, hsub'⟩ := List.sublist_append_iff.mp h
  rcases s with - | ⟨y, s⟩
  · rw [List.nil_append] at hs
    subst hs
    rcases List.sublist_cons_iff.mp hsub' with h | ⟨r, hr, h⟩
    · exact absurd (h.subset (by simp)) hid'
    · obtain ⟨rfl, rfl⟩ := List.cons.inj hr
      exact absurd (h.subset (by simp)) hid'
  · obtain ⟨rfl, -⟩ := List.cons.inj hs
    exact hsub.subset (List.mem_cons_self ..)

theorem sublist_left {α : Type} {s l l' : List α} (h : s.Sublist (l ++ l')) (hnone : ∀ x ∈ s, x ∉ l') :
    s.Sublist l := by
  obtain ⟨s₁, s₂, rfl, hsub, hsub'⟩ := List.sublist_append_iff.mp h
  have hempty : s₂ = [] := by
    cases s₂ with
    | nil => rfl
    | cons x s₂ => exact absurd (hsub'.subset (List.mem_cons_self ..)) (hnone x (by simp))
  rw [hempty, List.append_nil]
  exact hsub

end Logs

/-! ### The jobs that have not started -/

/-- For every group: what was pushed is what has started and then, in some order that keeps
the order of either, what is in hand and what stands in line. While a pass goes on, what
is in hand comes first. -/
def InOrder (pushed started : Log) (passing : Bool) (hand line : List String) : Prop :=
  ∀ g, ∃ rest, onGroup g pushed = onGroup g started ++ rest ∧ (select pushed g hand).Sublist rest ∧
    (select pushed g line).Sublist rest ∧ rest.Perm (select pushed g hand ++ select pushed g line) ∧
    (passing = true → rest = select pushed g hand ++ select pushed g line)

namespace InOrder
variable {pushed started : Log} {hand line : List String} {id : String}

theorem of_eq (h : ∀ g, onGroup g pushed = onGroup g started ++ (select pushed g hand ++ select pushed g line)) :
    InOrder pushed started true hand line :=
  fun g => ⟨_, h g, List.sublist_append_left .., List.sublist_append_right .., .refl _, fun _ => rfl⟩

theorem eq (h : InOrder pushed started true hand line) (g : String) :
    onGroup g pushed = onGroup g started ++ (select pushed g hand ++ select pushed g line) := by
  obtain ⟨rest, hrest, -, -, -, hall⟩ := h g
  rw [hrest, hall rfl]

theorem pass (h : InOrder pushed started true hand line) : InOrder pushed started false hand line := by
  intro g
  obtain ⟨rest, hrest, hhand, hline, hperm, -⟩ := h g
  exact ⟨rest, hrest, hhand, hline, hperm, fun h => absurd h (by decide)⟩

/-- With empty hands the line is the order. -/
theorem emptyHanded (h : InOrder pushed started false [] line) : InOrder pushed started true [] line := by
  apply of_eq
  intro g
  obtain ⟨rest, hrest, -, hline, hperm, -⟩ := h g
  rw [hrest, hline.eq_of_length hperm.length_eq.symm]
  rfl

theorem push {passing : Bool} {g' : String} (h : InOrder pushed started passing hand line)
    (hfresh : id ∉ pushed.map (·.1)) (hhand : id ∉ hand) (hline : id ∉ line) :
    InOrder (pushed ++ [(id, g')]) started passing hand (line ++ [id]) := by
  intro g
  obtain ⟨rest, hrest, hsub, hsub', hperm, hall⟩ := h g
  have hone : select (pushed ++ [(id, g')]) g [id] = onGroup g [(id, g')] := by
    have hnone : (id, g) ∉ pushed := fun h => hfresh (List.mem_map_of_mem h)
    rw [onGroup_singleton, select]
    by_cases hg : g' = g
    · simp [hg]
    · simp [hg, hnone, Ne.symm hg]
  have hnew : select (pushed ++ [(id, g')]) g (line ++ [id]) = select pushed g line ++ onGroup g [(id, g')] := by
    rw [select_append, select_snoc hline, hone]
  rw [hnew, select_snoc hhand]
  refine ⟨rest ++ onGroup g [(id, g')], ?_, ?_, ?_, ?_, ?_⟩
  · rw [onGroup_append, hrest, List.append_assoc]
  · exact hsub.trans (List.sublist_append_left ..)
  · exact hsub'.append (List.Sublist.refl _)
  · rw [← List.append_assoc]
    exact hperm.append_right _
  · intro hp
    rw [hall hp, List.append_assoc]

/-- The pass takes the next in line. -/
theorem pop (h : InOrder pushed started true hand (id :: line)) :
    InOrder pushed started true (hand ++ [id]) line := by
  apply of_eq
  intro g
  have hcons : select pushed g (id :: line) = select pushed g [id] ++ select pushed g line :=
    select_append [id] line
  rw [h.eq g, hcons, select_append, List.append_assoc (select pushed g hand)]

/-- A job starts when none of its group is held back before it. -/
theorem start {g : String} (h : InOrder pushed started true (hand ++ [id]) line)
    (hfresh : (pushed.map (·.1)).Nodup) (hid : (id, g) ∈ pushed) (hnone : ∀ id' ∈ hand, (id', g) ∉ pushed) :
    InOrder pushed (started ++ [(id, g)]) true hand line := by
  apply of_eq
  intro g'
  rw [h.eq g', onGroup_append, onGroup_singleton, select_append]
  by_cases hg : g = g'
  · subst hg
    have hempty : select pushed g hand = [] := by
      apply List.filter_eq_nil_iff.mpr
      intro id' hid'
      simpa using hnone id' hid'
    have hhere : select pushed g [id] = [id] := by simp [select, hid]
    rw [hempty, hhere, if_pos rfl]
    simp
  · have hother : select pushed g' [id] = [] := by
      have hne : (id, g') ∉ pushed := fun h' => hg (group_unique hfresh hid h')
      simp [select, hne]
    rw [hother, if_neg hg]
    simp

/-- A job goes back to the end of the line when all of its group in the line are earlier. -/
theorem putBack (h : InOrder pushed started false (id :: hand) line) (hfresh : (pushed.map (·.1)).Nodup)
    (hbefore : ∀ id' ∈ line, ∀ g, (id, g) ∈ pushed → (id', g) ∈ pushed → Before pushed id' id) :
    InOrder pushed started false hand (line ++ [id]) := by
  intro g
  obtain ⟨rest, hrest, hsub, hsub', hperm, -⟩ := h g
  by_cases hid : (id, g) ∈ pushed
  · have hcons : select pushed g (id :: hand) = id :: select pushed g hand := by simp [select, hid]
    have hsnoc : select pushed g (line ++ [id]) = select pushed g line ++ [id] := by simp [select, hid]
    rw [hcons] at hsub hperm
    rw [hsnoc]
    refine ⟨rest, hrest, (List.sublist_cons_self ..).trans hsub, ?_, ?_, fun h => absurd h (by decide)⟩
    · -- `id` splits what is left in two, and all of the line is in the first part.
      obtain ⟨l, l', rfl⟩ := List.append_of_mem (hsub.subset (List.mem_cons_self ..))
      have hnodup : ((onGroup g started ++ l) ++ id :: l').Nodup := by
        rw [List.append_assoc, ← hrest]
        exact nodup_onGroup hfresh
      have hfirst : ∀ id' ∈ select pushed g line, id' ∉ id :: l' := by
        intro id' hid' hmem
        obtain ⟨hline, hg⟩ := mem_select.mp hid'
        have horder := (hbefore id' hline g hid hg).onGroup hfresh hg hid
        rw [hrest, ← List.append_assoc] at horder
        exact (List.nodup_append.mp hnodup).2.2 id' (mem_of_pair_sublist hnodup horder) id' hmem rfl
      exact (sublist_left hsub' hfirst).append (List.singleton_sublist.mpr (List.mem_cons_self ..))
    · apply hperm.trans
      rw [List.cons_append, ← List.append_assoc]
      exact (List.perm_append_singleton ..).symm
  · have hcons : select pushed g (id :: hand) = select pushed g hand := by simp [select, hid]
    have hsnoc : select pushed g (line ++ [id]) = select pushed g line := by simp [select, hid]
    rw [hcons] at hsub hperm
    rw [hsnoc]
    exact ⟨rest, hrest, hsub, hsub', hperm, fun h => absurd h (by decide)⟩

end InOrder

/-! ### The invariant -/

/-- The popped jobs that have not started, in the order they were popped. -/
def inHand : Place → List String
  | .popping skipped | .returning skipped | .returningRem _ skipped => skipped
  | .popped jobId skipped | .reading jobId skipped => skipped ++ [jobId]
  | .deciding job skipped => skipped ++ [job.id]
  | _ => []

/-- Nothing is being put back. -/
def passing : Place → Bool
  | .returning _ | .returningRem _ _ => false
  | _ => true

/-- The places of a grouped worker whose queue delays nothing. -/
def Regular : Place → Prop
  | .moving ready => ready = []
  | .moved _ _ | .putBack _ | .putBackRem _ | .inline _ => False
  | _ => True

/-- The stages of a handler that retries inline. -/
def Inline : Stage → Prop
  | .nackRead _ _ | .nackRem _ _ _ | .nackSet _ _ _ | .nackAdd _ _ => False
  | _ => True

/-- The line, oldest first. -/
def line (s : Store) (q : String) : List String := (lanes s q).waiting.reverse

/-- The record of a job that has not started. -/
def Recorded (s : Store) (q : String) (e : String × String) : Prop :=
  ∃ job, record s q e.1 = some (.job job) ∧ job.id = e.1 ∧ groupOf job = e.2

structure Inv (q : String) (st : State) : Prop where
  fresh : (st.pushed.map (·.1)).Nodup
  plain : ∀ e ∈ st.pushed, Plain e.1
  known : ∀ id ∈ inHand st.place ++ line st.store q, id ∈ st.pushed.map (·.1)
  order : InOrder st.pushed st.started (passing st.place) (inHand st.place) (line st.store q)
  recorded : ∀ e ∈ st.pushed, e ∉ st.started → Recorded st.store q e
  deciding : ∀ job skipped, st.place = .deciding job skipped → (job.id, groupOf job) ∈ st.pushed
  busy : ∀ id ∈ skipping st.place, ∀ g, (id, g) ∈ st.pushed → g ∈ st.handlers.map (·.group)
  logs : ∀ g, onGroup g st.started =
    onGroup g st.ended ++ (st.handlers.filter fun h => h.group = g).filterMap fun h => current h.stage
  groups : (st.handlers.map (·.group)).Nodup
  handlers : ∀ h ∈ st.handlers, h.worker = 0 ∧ h.queue = q ∧ h.inline = true ∧ Inline h.stage
  delayed : (lanes st.store q).delayed = []
  regular : Regular st.place

namespace Inv
variable {q : String} {st st' : State}

theorem empty (q : String) : Inv q .empty where
  fresh := List.nodup_nil
  plain _ h := by cases h
  known _ h := by cases h
  order := .of_eq fun _ => rfl
  recorded _ h := by cases h
  deciding _ _ h := by cases h
  busy _ h := by cases h
  logs _ := rfl
  groups := List.nodup_nil
  handlers _ h := by cases h
  delayed := rfl
  regular := trivial

theorem prefix_pushed (inv : Inv q st) (g : String) : onGroup g st.started <+: onGroup g st.pushed := by
  obtain ⟨rest, hrest, -⟩ := inv.order g
  exact ⟨rest, hrest.symm⟩

theorem started_subset (inv : Inv q st) {e : String × String} (h : e ∈ st.started) : e ∈ st.pushed :=
  mem_onGroup.mp ((inv.prefix_pushed e.2).subset (mem_onGroup.mpr h))

/-- What is in hand or in line has not started. -/
theorem not_started (inv : Inv q st) {id g : String} (hid : id ∈ inHand st.place ++ line st.store q)
    (hg : (id, g) ∈ st.pushed) : (id, g) ∉ st.started := by
  intro hstarted
  obtain ⟨rest, hrest, hhand, hline, -⟩ := inv.order g
  have hnodup : (onGroup g st.started ++ rest).Nodup := hrest ▸ nodup_onGroup inv.fresh
  have hmem : id ∈ rest := by
    rcases List.mem_append.mp hid with h | h
    · exact hhand.subset (mem_select.mpr ⟨h, hg⟩)
    · exact hline.subset (mem_select.mpr ⟨h, hg⟩)
  exact (List.nodup_append.mp hnodup).2.2 id (mem_onGroup.mpr hstarted) id hmem rfl

/-- At most one handler serves a group. -/
theorem one_handler (inv : Inv q st) (g : String) : (st.handlers.filter fun h => h.group = g).length ≤ 1 := by
  have hcount := List.nodup_iff_count_le_one.mp inv.groups g
  rw [List.count_eq_countP, List.countP_map, List.countP_eq_length_filter] at hcount
  convert hcount using 4
  exact (beq_eq_decide ..).symm

theorem orderly (inv : Inv q st) : Orderly st := by
  intro g
  refine ⟨inv.prefix_pushed g, ?_⟩
  have hone := inv.one_handler g
  rw [inv.logs g]
  generalize st.handlers.filter (fun h => h.group = g) = serving at hone ⊢
  rcases serving with - | ⟨h', rest⟩
  · left
    simp
  · obtain rfl : rest = [] := by
      rw [List.length_cons] at hone
      exact List.length_eq_zero_iff.mp (by omega)
    cases hcurrent : current h'.stage with
    | none =>
      left
      simp [hcurrent]
    | some id =>
      right
      exact ⟨id, by simp [hcurrent]⟩

theorem line_pushJob {job : Job} (hqueue : job.queue = q) :
    line (pushJob job st.store) q = line st.store q ++ [job.id] := by
  rw [line, lanes_pushJob, hqueue, Function.update_self]
  exact List.reverse_cons ..

theorem push (inv : Inv q st) {job : Job} (hqueue : job.queue = q) (hid : Plain job.id)
    (hfresh : job.id ∉ st.pushed.map (·.1)) :
    Inv q { st with store := pushJob job st.store, pushed := st.pushed ++ [(job.id, groupOf job)] } := by
  have hnew : ∀ id ∈ inHand st.place ++ line st.store q, id ≠ job.id := by
    rintro id hmem rfl
    exact hfresh (inv.known _ hmem)
  have hhand : job.id ∉ inHand st.place := fun h => hnew _ (List.mem_append_left _ h) rfl
  have hline : job.id ∉ line st.store q := fun h => hnew _ (List.mem_append_right _ h) rfl
  refine ⟨?_, ?_, ?_, ?_, ?_, ?_, ?_, inv.logs, inv.groups, inv.handlers, ?_, inv.regular⟩
  · rw [List.map_append]
    refine List.nodup_append.mpr ⟨inv.fresh, List.nodup_singleton _, ?_⟩
    rintro a ha b hb rfl
    rw [List.mem_singleton.mp hb] at ha
    exact hfresh ha
  · intro e he
    rcases List.mem_append.mp he with he | he
    · exact inv.plain e he
    · rw [List.mem_singleton.mp he]
      exact hid
  · intro id hmem
    rw [line_pushJob hqueue, ← List.append_assoc] at hmem
    rw [List.map_append]
    rcases List.mem_append.mp hmem with hmem | hmem
    · exact List.mem_append_left _ (inv.known id hmem)
    · exact List.mem_append_right _ hmem
  · rw [line_pushJob hqueue]
    exact inv.order.push hfresh hhand hline
  · intro e he hstarted
    show Recorded (st.store.setJob _ _) q e
    rcases List.mem_append.mp he with he | he
    · have hne : e.1 ≠ job.id := fun h => hfresh (h ▸ List.mem_map_of_mem he)
      obtain ⟨job', hjob', hid', hg'⟩ := inv.recorded e he hstarted
      refine ⟨job', ?_, hid', hg'⟩
      rw [record_setJob _ _ hid _ _ (inv.plain e he), if_neg (fun h => hne h.2.symm)]
      exact hjob'
    · rw [List.mem_singleton.mp he]
      refine ⟨job, ?_, rfl, rfl⟩
      rw [record_setJob _ _ hid _ _ hid, if_pos ⟨hqueue, rfl⟩]
  · intro job' skipped h
    exact List.mem_append_left _ (inv.deciding job' skipped h)
  · intro id hmem g hg
    rcases List.mem_append.mp hg with hg | hg
    · exact inv.busy id hmem g hg
    · -- A held back job is not the new one.
      have hin : id ∈ inHand st.place := by
        revert hmem
        cases st.place <;> simp_all [skipping, inHand]
      obtain ⟨rfl, -⟩ := Prod.mk.inj (List.mem_singleton.mp hg)
      exact absurd hin hhand
  · rw [lanes_pushJob, hqueue, Function.update_self]
    exact inv.delayed

/-- A step of the worker that starts nothing. -/
theorem advance (inv : Inv q st) {old place : Place} {store : Store} {l l' : List String}
    (hplace : st.place = old) (hline : line st.store q = l) (hline' : line store q = l')
    (hrecord : record store = record st.store)
    (hdelayed : (lanes store q).delayed = (lanes st.store q).delayed)
    (hknown : ∀ id ∈ inHand place ++ l', id ∈ inHand old ++ l)
    (horder : InOrder st.pushed st.started (passing old) (inHand old) l →
      InOrder st.pushed st.started (passing place) (inHand place) l')
    (hdeciding : ∀ job skipped, place = .deciding job skipped → (job.id, groupOf job) ∈ st.pushed)
    (hbusy : ∀ id ∈ skipping place, id ∈ skipping old ∨
      ∀ g, (id, g) ∈ st.pushed → g ∈ st.handlers.map (·.group))
    (hregular : Regular place) : Inv q { st with store, place } := by
  subst hplace hline hline'
  refine ⟨inv.fresh, inv.plain, fun id h => inv.known id (hknown id h), horder inv.order, ?_, hdeciding, ?_,
    inv.logs, inv.groups, inv.handlers, hdelayed.trans inv.delayed, hregular⟩
  · intro e he hstarted
    show Recorded store q e
    rw [Recorded, hrecord]
    exact inv.recorded e he hstarted
  · intro id hid
    rcases hbusy id hid with h | h
    · exact inv.busy id h
    · exact h

/-- The handlers of the worker are all of them. -/
theorem handlersOf_eq (inv : Inv q st) : handlersOf 0 st.handlers = st.handlers := by
  apply List.filter_eq_self.mpr
  intro h hh
  simpa using (inv.handlers h hh).1

/-- A job whose group is free starts. -/
theorem start (inv : Inv q st) {configs : Configs} {limit : Nat} {job : Job} {skipped : List String}
    (hplace : st.place = .deciding job skipped) (hfree : groupOf job ∉ st.handlers.map (·.group)) :
    Inv q { st with
      place := .popping skipped
      handlers := spawned configs (Grouped.worker q limit st.place) true job :: st.handlers
      started := st.started ++ [(job.id, groupOf job)] } := by
  have hjob := inv.deciding job skipped hplace
  have hnone : ∀ id ∈ skipped, (id, groupOf job) ∉ st.pushed := by
    intro id hid hg
    apply hfree
    apply inv.busy id _ _ hg
    rw [hplace]
    exact hid
  have horder : InOrder st.pushed st.started true (skipped ++ [job.id]) (line st.store q) := by
    have := inv.order
    rw [hplace] at this
    exact this
  refine ⟨inv.fresh, inv.plain, ?_, horder.start inv.fresh hjob hnone, ?_, ?_, ?_, ?_, ?_, ?_, inv.delayed,
    trivial⟩
  · intro id h
    apply inv.known id
    rw [hplace]
    rcases List.mem_append.mp h with h | h
    · exact List.mem_append_left _ (List.mem_append_left _ h)
    · exact List.mem_append_right _ h
  · intro e he hstarted
    exact inv.recorded e he fun h => hstarted (List.mem_append_left _ h)
  · intro job' skipped' h
    cases h
  · intro id hid g hg
    apply List.mem_cons_of_mem
    apply inv.busy id _ g hg
    rw [hplace]
    exact hid
  · intro g
    have hcurrent : current (spawned configs (Grouped.worker q limit st.place) true job).stage = some job.id := by
      show some (applySubscriptionOverrides configs job).id = _
      rw [applySubscriptionOverrides_id]
    rw [onGroup_append, onGroup_singleton, inv.logs g, List.filter_cons]
    by_cases hg : groupOf job = g
    · have hempty : (st.handlers.filter fun h => h.group = g) = [] := by
        apply List.filter_eq_nil_iff.mpr
        intro h hh hg'
        apply hfree
        rw [hg, ← of_decide_eq_true hg']
        exact List.mem_map_of_mem hh
      have hsame : decide ((spawned configs (Grouped.worker q limit st.place) true job).group = g) = true :=
        decide_eq_true hg
      rw [hempty, if_pos hsame, if_pos hg]
      simp [hcurrent]
    · have hother : ¬decide ((spawned configs (Grouped.worker q limit st.place) true job).group = g) = true :=
        fun h => hg (of_decide_eq_true h)
      rw [if_neg hother, if_neg hg, List.append_nil]
  · exact List.nodup_cons.mpr ⟨hfree, inv.groups⟩
  · intro h hh
    rcases List.mem_cons.mp hh with rfl | hh
    · exact ⟨rfl, rfl, rfl, trivial⟩
    · exact inv.handlers h hh

/-- The job being read is there, under its group. -/
theorem reading (inv : Inv q st) {jobId : String} {skipped : List String}
    (hplace : st.place = .reading jobId skipped) :
    ∃ job, record st.store q jobId = some (.job job) ∧ job.id = jobId ∧ (job.id, groupOf job) ∈ st.pushed := by
  have hmem : jobId ∈ inHand st.place ++ line st.store q := by
    rw [hplace]
    simp [inHand]
  obtain ⟨⟨id, g⟩, he, rfl⟩ := List.mem_map.mp (inv.known jobId hmem)
  obtain ⟨job, hjob, hid, hg⟩ := inv.recorded (id, g) he (inv.not_started hmem he)
  exact ⟨job, hjob, hid, by rw [hid, hg]; exact he⟩

/-- The steps that spawn nothing change neither the handlers nor the log of starts. -/
theorem quiet {place : Place} {store : Store} (h : Inv q { st with store, place }) :
    Inv q { st with store, place, handlers := [] ++ st.handlers, started := st.started ++ startedBy [] } := by
  rw [List.nil_append, startedBy, List.flatMap_nil, List.append_nil]
  exact h

theorem worker (inv : Inv q st) {configs : Configs} {now limit : Nat} {place : Place} {store : Store}
    {spawned : List Handler}
    (hstep : (Grouped.worker q limit st.place).Step configs now st.handlers st.place st.store place store spawned)
    (hputBack : ∀ id rest, st.place = .returning (id :: rest) → (ordered q).putBack st id) :
    Inv q { st with store, place, handlers := spawned ++ st.handlers
                    started := st.started ++ startedBy spawned } := by
  have hregular := inv.regular
  have hw : handlersOf (Grouped.worker q limit st.place).id st.handlers = st.handlers := inv.handlersOf_eq
  have hempty : ∀ {p : String → Prop}, ∀ id ∈ ([] : List String), p id := fun id h => absurd h List.not_mem_nil
  generalize hplace : st.place = old at hstep hputBack hregular hw
  cases hstep with
  | tick _ =>
    have hready : zrangebyscore (delayedKey q) 0 now st.store.sortedSets = [] := by
      have hset : items st.store.sortedSets (delayedKey q) = [] := inv.delayed
      simp [zrangebyscore, hset]
    exact quiet (inv.advance hplace rfl rfl rfl rfl (fun _ h => h) (fun h => h) (fun _ _ h => by cases h) hempty
      hready)
  | moveEnd _ =>
    exact quiet (inv.advance hplace rfl rfl rfl rfl (fun _ h => h) (fun h => h) (fun _ _ h => by cases h) hempty
      trivial)
  | moveRem jobId ready _ h => cases hregular
  | moveGone jobId ready _ h => cases hregular
  | movePush jobId ready _ => cases hregular
  | full skipped _ hmode h =>
    exact quiet (inv.advance hplace rfl rfl rfl rfl (fun _ h => h) (·.pass) (fun _ _ h => by cases h) hempty
      trivial)
  | empty skipped _ h =>
    exact quiet (inv.advance hplace rfl rfl rfl rfl (fun _ h => h) (·.pass) (fun _ _ h => by cases h) hempty
      trivial)
  | pop skipped rest jobId _ hroom h =>
    have hwaiting : (lanes st.store q).waiting = rest ++ [jobId] := h
    have hline : line st.store q = jobId :: rest.reverse := by simp [line, hwaiting]
    have hpopped : lanes (st.store.onLists fun lists => (rpop (waitingKey q) lists).2) q =
        { lanes st.store q with waiting := rest } := by
      simp [hwaiting]
    refine quiet (inv.advance hplace hline (congrArg (·.waiting.reverse) hpopped) rfl
      (congrArg (·.delayed) hpopped) ?_ (·.pop) (fun _ _ h => by cases h) (fun _ h => .inl h) trivial)
    intro id h
    simpa [inHand] using h
  | activate jobId skipped _ =>
    have hactive : lanes (st.store.onLists (lpush (activeKey q) jobId)) q =
        { lanes st.store q with active := jobId :: (lanes st.store q).active } := by
      simp
    exact quiet (inv.advance hplace rfl (congrArg (·.waiting.reverse) hactive) rfl
      (congrArg (·.delayed) hactive) (fun _ h => h) (fun h => h) (fun _ _ h => by cases h) (fun _ h => .inl h)
      trivial)
  | unread jobId skipped _ h =>
    obtain ⟨job, hjob, -, -⟩ := inv.reading hplace
    have hget : st.store.getJob (jobKey q jobId) = some (.job job) := hjob
    exact absurd h (by simp [Grouped.worker, hget, Record.read])
  | read jobId skipped _ job h =>
    obtain ⟨job', hjob, hid, hmem⟩ := inv.reading hplace
    have hget : st.store.getJob (jobKey q jobId) = some (.job job') := hjob
    obtain rfl : job' = job := by simpa [Grouped.worker, hget, Record.read] using h
    refine quiet (inv.advance hplace rfl rfl rfl rfl ?_ ?_ ?_ (fun _ h => .inl h) trivial)
    · simp only [inHand, hid]
      exact fun _ h => h
    · simp only [inHand, hid, passing]
      exact fun h => h
    · rintro job skipped h
      obtain ⟨rfl, -⟩ := Place.deciding.inj h
      exact hmem
  | permit job skipped _ hmode h => cases hmode
  | noPermit job _ hmode h => cases hmode
  | putBack jobId _ => cases hregular
  | putBackRem jobId _ => cases hregular
  | skip job skipped _ hmode h =>
    have hg : groupOf job ∈ st.handlers.map (·.group) := hw ▸ h
    have hjob := inv.deciding job skipped hplace
    refine quiet (inv.advance hplace rfl rfl rfl rfl (fun _ h => h) (fun h => h) (fun _ _ h => by cases h) ?_
      trivial)
    intro id hid
    rcases List.mem_append.mp hid with hid | hid
    · exact .inl hid
    · right
      intro g hg'
      rw [List.mem_singleton.mp hid] at hg'
      rw [group_unique inv.fresh hg' hjob]
      exact hg
  | start job skipped _ hmode h =>
    have hg : groupOf job ∉ st.handlers.map (·.group) := hw ▸ h
    have hstarted : startedBy [Tasks.spawned configs (Grouped.worker q limit (.deciding job skipped)) true job] =
        [(job.id, groupOf job)] := by
      simp [startedBy, Tasks.spawned, current, applySubscriptionOverrides_id]
    rw [hstarted]
    exact hplace ▸ inv.start hplace hg
  | returnPush jobId skipped _ =>
    have hpushed : lanes (st.store.onLists (lpush (waitingKey q) jobId)) q =
        { lanes st.store q with waiting := jobId :: (lanes st.store q).waiting } := by
      simp
    have hline : line (st.store.onLists (lpush (waitingKey q) jobId)) q = line st.store q ++ [jobId] := by
      rw [line, hpushed]
      exact List.reverse_cons ..
    refine quiet (inv.advance hplace rfl hline rfl (congrArg (·.delayed) hpushed) ?_ ?_
      (fun _ _ h => by cases h) hempty trivial)
    · intro id h
      simp only [inHand, List.mem_append, List.mem_cons] at h ⊢
      tauto
    · intro h
      apply h.putBack inv.fresh
      exact fun id' hid' => hputBack jobId skipped rfl id' (List.mem_reverse.mp hid')
  | returnRem jobId skipped _ =>
    have hremoved : lanes (st.store.onLists (lrem (activeKey q) 1 jobId)) q =
        { lanes st.store q with active := (lanes st.store q).active.erase jobId } := by
      simp
    exact quiet (inv.advance hplace rfl (congrArg (·.waiting.reverse) hremoved) rfl
      (congrArg (·.delayed) hremoved) (fun _ h => h) (fun h => h) (fun _ _ h => by cases h) hempty trivial)
  | returned _ =>
    exact quiet (inv.advance hplace rfl rfl rfl rfl (fun _ h => h) (·.emptyHanded) (fun _ _ h => by cases h) hempty
      trivial)
  | inline job _ hmode => cases hmode
  | inlineDone _ => cases hregular

end Inv

/-- What a handler that retries inline does to its queue: it touches no line, no record but
that of its own job, and it stays with that job until it is done. -/
theorem stage_step {configs : Configs} {now : Nat} {q : String} {stage stage' : Stage} {s s' : Store}
    {acked : List String} (hstep : Stage.Step configs now q true stage s stage' s' acked)
    (hinline : Inline stage) :
    ∃ id, current stage = some id ∧ Inline stage' ∧ (current stage' = some id ∨ stage' = .done) ∧
      (lanes s' q).waiting = (lanes s q).waiting ∧ (lanes s' q).delayed = (lanes s q).delayed ∧
      (Plain id → ∀ id', Plain id' → id' ≠ id → record s' q id' = record s q id') := by
  have hset : ∀ (s : Store) (id id' : String) (r : Record), Plain id → Plain id' → id' ≠ id →
      record (s.setJob (jobKey q id) r) q id' = record s q id' := by
    intro s id id' r hid hid' hne
    rw [record_setJob _ _ hid _ _ hid', if_neg fun h => hne h.2.symm]
  have hdelete : ∀ (s : Store) (id id' : String), Plain id → Plain id' → id' ≠ id →
      record (s.deleteJob (jobKey q id)) q id' = record s q id' := by
    intro s id id' hid hid' hne
    rw [record_deleteJob _ _ hid _ hid', if_neg fun h => hne h.2.symm]
  cases hstep with
  | ok job _ => exact ⟨job.id, rfl, trivial, .inl rfl, rfl, rfl, fun _ _ _ _ => rfl⟩
  | ackRem jobId _ =>
    exact ⟨jobId, rfl, trivial, .inl rfl, by simp, by simp, fun _ _ _ _ => rfl⟩
  | ackDelete jobId _ =>
    exact ⟨jobId, rfl, trivial, .inr rfl, rfl, rfl, fun hid id' hid' hne => hdelete s jobId id' hid hid' hne⟩
  | error job error _ h => cases h
  | nackMissing jobId error _ h => cases hinline
  | nackBroken jobId error _ value h => cases hinline
  | nackExhausted jobId error _ job h hexhausted => cases hinline
  | nackRetry jobId error _ job job' h hjob hexhausted => cases hinline
  | nackRem jobId job processAt _ => cases hinline
  | nackSet jobId job processAt _ => cases hinline
  | nackAdd jobId processAt _ => cases hinline
  | exhausted job error _ h hexhausted =>
    exact ⟨job.id, rfl, trivial, .inl rfl, rfl, rfl, fun _ _ _ _ => rfl⟩
  | buryRem job error _ => exact ⟨job.id, rfl, trivial, .inl rfl, by simp, by simp, fun _ _ _ _ => rfl⟩
  | buryPush job error _ => exact ⟨job.id, rfl, trivial, .inl rfl, by simp, by simp, fun _ _ _ _ => rfl⟩
  | buryDelete jobId _ =>
    exact ⟨jobId, rfl, trivial, .inr rfl, rfl, rfl, fun hid id' hid' hne => hdelete s jobId id' hid hid' hne⟩
  | retry job _ h hexhausted => exact ⟨job.id, rfl, trivial, .inl rfl, rfl, rfl, fun _ _ _ _ => rfl⟩
  | awake job _ =>
    exact ⟨job.id, rfl, trivial, .inl rfl, rfl, rfl, fun hid id' hid' hne => hset s job.id id' _ hid hid' hne⟩

namespace Inv
variable {q : String} {st st' : State}

variable {a b : List Handler}

/-- The other handlers serve other groups. -/
theorem others (inv : Inv q st) {h : Handler} (hsplit : st.handlers = a ++ h :: b) :
    (a.filter fun h' => h'.group = h.group) = [] ∧ (b.filter fun h' => h'.group = h.group) = [] := by
  have hnodup := inv.groups
  rw [hsplit, List.map_append, List.map_cons] at hnodup
  obtain ⟨-, hright, hdisjoint⟩ := List.nodup_append.mp hnodup
  constructor
  · apply List.filter_eq_nil_iff.mpr
    intro h' hh' hg
    exact hdisjoint h'.group (List.mem_map_of_mem hh') h.group (List.mem_cons_self ..) (of_decide_eq_true hg)
  · apply List.filter_eq_nil_iff.mpr
    intro h' hh' hg
    apply (List.nodup_cons.mp hright).1
    rw [← of_decide_eq_true hg]
    exact List.mem_map_of_mem hh'

/-- What the logs say of the group one handler serves. -/
theorem log_of_handler (inv : Inv q st) {h : Handler} (hsplit : st.handlers = a ++ h :: b) :
    onGroup h.group st.started = onGroup h.group st.ended ++ (current h.stage).toList := by
  obtain ⟨ha, hb⟩ := inv.others hsplit
  rw [inv.logs h.group, hsplit, List.filter_append, ha, List.nil_append, List.filter_cons,
    if_pos (decide_eq_true rfl), hb]
  cases hcurrent : current h.stage <;> simp [hcurrent]

theorem handler (inv : Inv q st) {configs : Configs} {now : Nat} {h : Handler} {stage : Stage} {store : Store}
    {acked : List String} (hsplit : st.handlers = a ++ h :: b)
    (hstep : h.stage.Step configs now h.queue h.inline st.store stage store acked) :
    Inv q { st with store, handlers := a ++ { h with stage } :: b, ended := st.ended ++ endedBy h stage } := by
  have hh : h ∈ st.handlers := by
    rw [hsplit]
    simp
  obtain ⟨hworker, hqueue, hinline, hstage⟩ := inv.handlers h hh
  rw [hqueue, hinline] at hstep
  obtain ⟨id, hcurrent, hstage', hnext, hwaiting, hdelayed, hrecord⟩ := stage_step hstep hstage
  have hlog := inv.log_of_handler hsplit
  have hstarted : (id, h.group) ∈ st.started := by
    apply mem_onGroup.mp
    rw [hlog, hcurrent]
    simp
  have hpushed := inv.started_subset hstarted
  have hline : line store q = line st.store q := congrArg List.reverse hwaiting
  have hgroups : (a ++ { h with stage } :: b).map (·.group) = st.handlers.map (·.group) := by
    rw [hsplit, List.map_append, List.map_append]
    rfl
  refine ⟨inv.fresh, inv.plain, ?_, ?_, ?_, inv.deciding, ?_, ?_, ?_, ?_, hdelayed.trans inv.delayed,
    inv.regular⟩
  · intro id' hmem
    rw [hline] at hmem
    exact inv.known id' hmem
  · rw [hline]
    exact inv.order
  · intro e he hnew
    have hne : e.1 ≠ id := by
      rintro rfl
      have hg : e.2 = h.group := group_unique inv.fresh he hpushed
      exact hnew (hg ▸ hstarted)
    show Recorded store q e
    rw [Recorded, hrecord (inv.plain _ hpushed) e.1 (inv.plain e he) hne]
    exact inv.recorded e he hnew
  · intro id' hmem g hg
    show g ∈ (a ++ { h with stage } :: b).map (·.group)
    rw [hgroups]
    exact inv.busy id' hmem g hg
  · intro g
    show onGroup g st.started = onGroup g (st.ended ++ endedBy h stage) ++
      ((a ++ { h with stage } :: b).filter fun h => h.group = g).filterMap fun h => current h.stage
    rw [onGroup_append, List.filter_append, List.filter_cons]
    by_cases hg : h.group = g
    · subst hg
      obtain ⟨ha, hb⟩ := inv.others hsplit
      rw [hlog, hcurrent, ha, hb, if_pos (decide_eq_true rfl)]
      rcases hnext with hnext | rfl
      · have hended : endedBy h stage = [] := by
          cases stage <;> first | rfl | cases hnext
        simp [hended, hnext, onGroup]
      · have hended : onGroup h.group (endedBy h .done) = [id] := by
          simp [endedBy, hcurrent, onGroup]
        rw [hended]
        simp [current]
    · have hended : onGroup g (endedBy h stage) = [] := by
        unfold endedBy
        split
        · simp [hcurrent, onGroup, hg]
        · rfl
      rw [hended, List.append_nil, if_neg (by simpa using hg), ← List.filter_append]
      have hfilter : ((a ++ b).filter fun h => h.group = g) = st.handlers.filter fun h => h.group = g := by
        rw [hsplit, List.filter_append, List.filter_append, List.filter_cons, if_neg (by simpa using hg)]
      rw [hfilter]
      exact inv.logs g
  · show ((a ++ { h with stage } :: b).map (·.group)).Nodup
    rw [hgroups]
    exact inv.groups
  · intro h' hh'
    have hold := hsplit ▸ inv.handlers
    rcases List.mem_append.mp hh' with hh' | hh'
    · exact hold h' (List.mem_append_left _ hh')
    · rcases List.mem_cons.mp hh' with rfl | hh'
      · exact ⟨hworker, hqueue, hinline, hstage'⟩
      · exact hold h' (List.mem_append_right _ (List.mem_cons_of_mem _ hh'))

theorem free (inv : Inv q st) {h : Handler} (hsplit : st.handlers = a ++ h :: b) (hdone : h.stage = .done)
    (hfree : (ordered q).free st h.group) : Inv q { st with handlers := a ++ b } := by
  have hmem : ∀ h' ∈ a ++ b, h' ∈ st.handlers := by
    intro h' hh'
    rw [hsplit]
    rcases List.mem_append.mp hh' with hh' | hh'
    · exact List.mem_append_left _ hh'
    · exact List.mem_append_right _ (List.mem_cons_of_mem _ hh')
  refine ⟨inv.fresh, inv.plain, inv.known, inv.order, inv.recorded, inv.deciding, ?_, ?_, ?_, ?_, inv.delayed,
    inv.regular⟩
  · intro id hid g hg
    have hbusy := inv.busy id hid g hg
    have hne : g ≠ h.group := by
      rintro rfl
      exact hfree id hid hg
    rw [hsplit, List.map_append, List.map_cons] at hbusy
    show g ∈ (a ++ b).map (·.group)
    rw [List.map_append]
    simp only [List.mem_append, List.mem_cons] at hbusy ⊢
    tauto
  · intro g
    rw [inv.logs g, hsplit]
    show _ = onGroup g st.ended ++ ((a ++ b).filter fun h => h.group = g).filterMap fun h => current h.stage
    rw [List.filter_append, List.filter_append, List.filter_cons]
    have hnone : current h.stage = none := by rw [hdone]; rfl
    split
    · simp only [List.filterMap_append, List.filterMap_cons, hnone]
    · rfl
  · have hsub : ((a ++ b).map (·.group)).Sublist (st.handlers.map (·.group)) := by
      rw [hsplit]
      exact ((List.Sublist.refl a).append (List.sublist_cons_self h b)).map _
    exact hsub.nodup inv.groups
  · exact fun h' hh' => inv.handlers h' (hmem h' hh')

end Inv

/-- In every run that frees no group while a pass holds back a job of it, and puts no
skipped job back behind a later one, the jobs of a group are handled one at a time and in
the order they were pushed. -/
theorem groups_in_order (q : String) (limit : Nat) (st : State)
    (h : (system (ordered q) q limit).Reachable st) : Orderly st := by
  have inv : Inv q st := by
    apply h.invariant (I := Inv q)
    · rintro st rfl
      exact Inv.empty q
    · intro st st' _ inv hstep
      cases hstep with
      | push job hqueue hid hfresh => exact inv.push hqueue hid hfresh
      | worker configs now place store spawned hstep hputBack => exact inv.worker hstep hputBack
      | handler configs now a b h stage store acked hsplit hstep => exact inv.handler hsplit hstep
      | free a b h hsplit hdone hfree => exact inv.free hsplit hdone hfree
  exact inv.orderly

/-! ### Running the model -/

/-- What a worker's task does next, in the modes and places of this module. -/
def workerNext (now : Nat) (handlers : List Handler) (w : Worker) (s : Store) :
    Option (Place × Store × List Handler) :=
  match w.place with
  | .tick => some (.moving (zrangebyscore (delayedKey w.queue) 0 now s.sortedSets), s, [])
  | .moving [] => some (.popping [], s, [])
  | .popping skipped =>
    if w.concurrency ≤ (handlersOf w.id handlers).length then some (.returning skipped, s, [])
    else
      match (items s.lists (waitingKey w.queue)).getLast? with
      | some jobId =>
        some (.popped jobId skipped, s.onLists fun lists => (rpop (waitingKey w.queue) lists).2, [])
      | none => some (.returning skipped, s, [])
  | .popped jobId skipped => some (.reading jobId skipped, s.onLists (lpush (activeKey w.queue) jobId), [])
  | .reading jobId skipped =>
    match (s.getJob (jobKey w.queue jobId)).bind Record.read with
    | some job => some (.deciding job skipped, s, [])
    | none => some (.returning skipped, s, [])
  | .deciding job skipped =>
    if groupOf job ∈ (handlersOf w.id handlers).map (·.group) then some (.popping (skipped ++ [job.id]), s, [])
    else some (.popping skipped, s, [spawned [] w true job])
  | .returning [] => some (.tick, s, [])
  | .returning (jobId :: skipped) =>
    some (.returningRem jobId skipped, s.onLists (lpush (waitingKey w.queue) jobId), [])
  | .returningRem jobId skipped =>
    some (.returning skipped, s.onLists (lrem (activeKey w.queue) 1 jobId), [])
  | _ => none

theorem workerNext_step {now : Nat} {handlers : List Handler} {w : Worker} {s : Store}
    {r : Place × Store × List Handler} (hmode : w.mode = .grouped) (h : workerNext now handlers w s = some r) :
    w.Step [] now handlers w.place s r.1 r.2.1 r.2.2 := by
  unfold workerNext at h
  split at h <;> rename_i hplace
  · rw [hplace, ← Option.some.inj h]
    exact .tick s
  · rw [hplace, ← Option.some.inj h]
    exact .moveEnd s
  · rw [hplace]
    split at h
    · rename_i hfull
      rw [← Option.some.inj h]
      exact .full _ s hmode hfull
    · rename_i hroom
      split at h <;> rename_i hlast <;> rw [← Option.some.inj h]
      · obtain ⟨rest, hrest⟩ := List.getLast?_eq_some_iff.mp hlast
        exact .pop _ rest _ s (fun _ => Nat.lt_of_not_le hroom) hrest
      · exact .empty _ s (List.getLast?_eq_none_iff.mp hlast)
  · rw [hplace, ← Option.some.inj h]
    exact .activate _ _ s
  · rw [hplace]
    split at h <;> rename_i hread <;> rw [← Option.some.inj h]
    · exact .read _ _ s _ hread
    · exact .unread _ _ s hread
  · rw [hplace]
    split at h <;> rename_i hgroup <;> rw [← Option.some.inj h]
    · exact .skip _ _ s hmode hgroup
    · exact .start _ _ s hmode hgroup
  · rw [hplace, ← Option.some.inj h]
    exact .returned s
  · rw [hplace, ← Option.some.inj h]
    exact .returnPush _ _ s
  · rw [hplace, ← Option.some.inj h]
    exact .returnRem _ _ s
  · cases h

/-- A handler that succeeds, write by write. -/
def succeedNext (q : String) (s : Store) : Stage → Option (Stage × Store × List String)
  | .handling job => some (.ackRem job.id, s, [])
  | .ackRem jobId => some (.ackDelete jobId, s.onLists (lrem (activeKey q) 1 jobId), [])
  | .ackDelete jobId => some (.done, s.deleteJob (jobKey q jobId), [jobId])
  | _ => none

theorem succeedNext_step {configs : Configs} {now : Nat} {q : String} {inline : Bool} {s : Store} {stage : Stage}
    {r : Stage × Store × List String} (h : succeedNext q s stage = some r) :
    Stage.Step configs now q inline stage s r.1 r.2.1 r.2.2 := by
  unfold succeedNext at h
  split at h
  · rw [← Option.some.inj h]
    exact .ok _ s
  · rw [← Option.some.inj h]
    exact .ackRem _ s
  · rw [← Option.some.inj h]
    exact .ackDelete _ s
  · cases h

inductive Move where
  | push (id group : String)
  | work
  | succeed (index : Nat)
  | free (index : Nat)

def jobOf (q id group : String) : Job := .newWithGroup id 0 q .null 3 1000 (some group) none none

def exec (q : String) (limit : Nat) (st : State) : Move → Option State
  | .push id group =>
    if Plain id ∧ id ∉ st.pushed.map (·.1) then
      some { st with store := pushJob (jobOf q id group) st.store, pushed := st.pushed ++ [(id, group)] }
    else none
  | .work =>
    (workerNext 0 st.handlers (worker q limit st.place) st.store).map fun r =>
      { st with store := r.2.1, place := r.1, handlers := r.2.2 ++ st.handlers
                started := st.started ++ startedBy r.2.2 }
  | .succeed index =>
    (st.handlers[index]?).bind fun h => (succeedNext h.queue st.store h.stage).map fun r =>
      { st with store := r.2.1
                handlers := st.handlers.take index ++ { h with stage := r.1 } :: st.handlers.drop (index + 1)
                ended := st.ended ++ endedBy h r.1 }
  | .free index =>
    (st.handlers[index]?).bind fun h =>
      match h.stage with
      | .done => some { st with handlers := st.handlers.take index ++ st.handlers.drop (index + 1) }
      | _ => none

theorem split_at {α : Type} {l : List α} {index : Nat} {a : α} (h : l[index]? = some a) :
    l = l.take index ++ a :: l.drop (index + 1) := by
  obtain ⟨hlt, rfl⟩ := List.getElem?_eq_some_iff.mp h
  rw [List.getElem_cons_drop, List.take_append_drop]

theorem exec_step {C : Conditions} {q : String} {limit : Nat} {st st' : State} {move : Move}
    (hfree : ∀ g, C.free st g) (hputBack : ∀ id rest, st.place = .returning (id :: rest) → C.putBack st id)
    (h : exec q limit st move = some st') : Step C q limit st st' := by
  cases move with
  | push id group =>
    simp only [exec, Option.ite_none_right_eq_some, Option.some.injEq] at h
    obtain ⟨⟨hid, hfresh⟩, rfl⟩ := h
    exact .push st (jobOf q id group) rfl hid hfresh
  | work =>
    obtain ⟨r, hr, rfl⟩ := Option.map_eq_some_iff.mp h
    exact .worker st [] 0 r.1 r.2.1 r.2.2 (workerNext_step rfl hr) hputBack
  | succeed index =>
    obtain ⟨h', hh, h⟩ := Option.bind_eq_some_iff.mp h
    obtain ⟨r, hr, rfl⟩ := Option.map_eq_some_iff.mp h
    exact .handler st [] 0 _ _ h' r.1 r.2.1 r.2.2 (split_at hh) (succeedNext_step hr)
  | free index =>
    obtain ⟨h', hh, h⟩ := Option.bind_eq_some_iff.mp h
    split at h
    · rename_i hdone
      rw [← Option.some.inj h]
      exact .free st _ _ h' (split_at hh) hdone (hfree _)
    · cases h

/-- A run of moves, each from a state that passes a test. -/
def execAll (test : State → Bool) (q : String) (limit : Nat) (moves : List Move) (st : State) : Option State :=
  moves.foldlM (fun st move => if test st then exec q limit st move else none) st

theorem reachable_execAll {C : Conditions} {test : State → Bool} {q : String} {limit : Nat} {moves : List Move}
    {st st' : State} (hfree : ∀ st, test st = true → ∀ g, C.free st g)
    (hputBack : ∀ st, test st = true → ∀ id rest, st.place = .returning (id :: rest) → C.putBack st id)
    (hst : (system C q limit).Reachable st) (h : execAll test q limit moves st = some st') :
    (system C q limit).Reachable st' := by
  induction moves generalizing st with
  | nil => exact Option.some.inj h ▸ hst
  | cons move rest ih =>
    rw [execAll, List.foldlM_cons] at h
    obtain ⟨st₁, h₁, h⟩ := Option.bind_eq_some_iff.mp h
    obtain ⟨htest, h₁⟩ := Option.ite_none_right_eq_some.mp h₁
    exact ih (hst.step (exec_step (hfree st htest) (hputBack st htest) h₁)) h

/-- Nothing is held back. -/
def clear (st : State) : Bool :=
  (skipping st.place).isEmpty && match st.place with
    | .returning (_ :: _) => false
    | _ => true

/-- Two jobs of one group, and one of another in between. -/
def inTurn : List Move :=
  [.push "a1" "a", .push "b1" "b"] ++ List.replicate 10 .work ++ List.replicate 3 (.succeed 1) ++
    [.push "a2" "a", .free 1] ++ List.replicate 7 .work

theorem groups_in_order_inTurn : ∃ st, execAll clear "mail" 2 inTurn .empty = some st ∧
    onGroup "a" st.started = ["a1", "a2"] ∧ Orderly st := by
  have hcheck : (execAll clear "mail" 2 inTurn .empty).any (fun st => onGroup "a" st.started = ["a1", "a2"]) =
      true := by
    rfl
  obtain ⟨st, hst, hstarted⟩ := (Option.any_eq_true _ _).mp hcheck
  refine ⟨st, hst, of_decide_eq_true hstarted, groups_in_order "mail" 2 st ?_⟩
  apply reachable_execAll _ _ (.init rfl) hst
  · intro st htest g id hid
    have hempty : skipping st.place = [] := by
      simpa using (Bool.and_eq_true_iff.mp htest).1
    rw [hempty] at hid
    cases hid
  · intro st htest id rest hplace
    have hnot := (Bool.and_eq_true_iff.mp htest).2
    rw [hplace] at hnot
    cases hnot

/-- Any interleaving at all. -/
def anyOrder : Conditions := ⟨fun _ _ => True, fun _ _ => True⟩

/-- `a1`, `a2` and `a3` are one group, `b1` another; there is room for two groups. The pass
starts `a1`, holds back `a2`, starts `b1` and is full, with `a3` still waiting. So `a2` goes
back behind `a3`, and when `a1` is done the next pass starts `a3`. -/
def overtaking : List Move :=
  [.push "a1" "a", .push "a2" "a", .push "b1" "b", .push "a3" "a"] ++ List.replicate 18 .work ++
    List.replicate 3 (.succeed 1) ++ [.free 1] ++ List.replicate 6 .work

theorem overtaken : ∃ st, (system anyOrder "mail" 2).Reachable st ∧ ¬Orderly st := by
  have hcheck : (execAll (fun _ => true) "mail" 2 overtaking .empty).any (fun st =>
      onGroup "a" st.started = ["a1", "a3"] ∧ onGroup "a" st.pushed = ["a1", "a2", "a3"]) = true := by
    rfl
  obtain ⟨st, hst, hlogs⟩ := (Option.any_eq_true _ _).mp hcheck
  obtain ⟨hstarted, hpushed⟩ := of_decide_eq_true hlogs
  refine ⟨st, reachable_execAll (fun _ _ _ => trivial) (fun _ _ _ _ _ => trivial) (.init rfl) hst, ?_⟩
  intro h
  have hstarts := (h "a").1
  rw [hstarted, hpushed] at hstarts
  revert hstarts
  decide

end Iii.Queue.Grouped
