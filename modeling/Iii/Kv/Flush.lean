import Iii.Kv.Reload
import Iii.Lib.System

/-! Persistence of the KV store (`flush_dirty`).

Operations change the store and mark the scope dirty in two steps, and any number of
them may stand between the two. A flush holds `flush_lock`: it drains the marks into
a batch, then takes each scope of it in turn, reading the store and writing the file
in two steps again. A failed write puts the scope back, unless somebody marked it in
the meantime.

The invariant says who is responsible for a file that is not up to date: a mark that
was made or is to come, or the batch. For the scope being written the snapshot may
itself be out of date, and then a mark has been made or is to come since it was taken. -/
namespace Iii.Kv
open Lib

/-- The storage directory: the scope a file holds. A temporary file never has the name of a
scope's file, and is left out. -/
abbrev Files : Type := List UInt8 → Option Scope

/-- A scope taken from the batch, with what the store held when it was read. -/
structure Snapshot where
  index : String
  op : DirtyOp
  scope : Option Scope

inductive Flush where
  | idle
  /-- The lock is held, before `dirty.is_empty()`. -/
  | checking
  /-- The blocking task is spawned and owns the lock. -/
  | scheduled
  | running (batch : List Mark) (current : Option Snapshot)

structure State where
  store : Store
  dirty : List Mark
  files : Files
  /-- The marks of the operations between their two steps. -/
  marking : List Mark
  flush : Flush

/-- `load_store_from_dir`, over the readable files of the directory. -/
def loadStore (files : Directory Scope) : Store := loadStoreFromDir some files

/-- `dirty.entry(index).or_insert(op)`. -/
def requeue (dirty : List Mark) (index : String) (op : DirtyOp) : List Mark :=
  if (Assoc.get? dirty index).isSome then dirty else Assoc.insert dirty index op

/-- One step of an operation or of the flush. -/
inductive Step : State → State → Prop
  | operate (s : State) (op : Operation) :
      Step s { s with store := (op.apply s.store).1, marking := s.marking ++ (op.apply s.store).2.toList }
  | mark (s : State) (before after : List Mark) (m : Mark) (h : s.marking = before ++ m :: after) :
      Step s { s with dirty := Assoc.insert s.dirty m.1 m.2, marking := before ++ after }
  | lock (s : State) (h : s.flush = .idle) : Step s { s with flush := .checking }
  /-- Nothing is dirty, or the caller was dropped. -/
  | leave (s : State) (h : s.flush = .checking) : Step s { s with flush := .idle }
  | spawn (s : State) (h : s.flush = .checking) (hd : s.dirty ≠ []) : Step s { s with flush := .scheduled }
  | drain (s : State) (h : s.flush = .scheduled) (batch : List Mark) (hb : batch.Perm s.dirty) :
      Step s { s with dirty := [], flush := .running batch none }
  | read (s : State) (m : Mark) (batch : List Mark) (h : s.flush = .running (m :: batch) none) :
      Step s { s with flush := .running batch (some ⟨m.1, m.2, view s.store m.1⟩) }
  /-- `persist_index_to_disk` or `delete_index_from_disk` succeeds. -/
  | write (s : State) (batch : List Mark) (c : Snapshot) (h : s.flush = .running batch (some c)) :
      Step s { s with
        files := Function.update s.files (indexFileName c.index) c.scope
        flush := .running batch none }
  /-- It fails: the file that was there is still there. -/
  | fail (s : State) (batch : List Mark) (c : Snapshot) (h : s.flush = .running batch (some c)) :
      Step s { s with dirty := requeue s.dirty c.index c.op, flush := .running batch none }
  | finish (s : State) (h : s.flush = .running [] none) : Step s { s with flush := .idle }

/-- A store is opened on a directory that holds the files of some scopes, none of them empty. The file of the empty
index is not found (`found_again_iff`), and is not there. -/
def Opened (s : State) : Prop :=
  ∃ scopes : List (String × Scope), Assoc.Distinct scopes ∧ (∀ m ∈ scopes, m.1 ≠ "" ∧ m.2 ≠ []) ∧
    s.store = loadStore (scopes.map fun m => (indexFileName m.1, m.2)) ∧
    s.files = Assoc.get? (scopes.map fun m => (indexFileName m.1, m.2)) ∧
    s.dirty = [] ∧ s.marking = [] ∧ s.flush = .idle

def kvSystem : System State := ⟨Opened, Step⟩

/-! ### Who is responsible for a scope -/

def Flush.batch : Flush → List String
  | .running batch none => batch.map (·.1)
  | .running batch (some c) => c.index :: batch.map (·.1)
  | _ => []

/-- Marked, or about to be. -/
def Marked (s : State) (index : String) : Prop :=
  index ∈ s.dirty.map (·.1) ∨ index ∈ s.marking.map (·.1)

/-- The file of a scope is what memory holds of it. -/
def UpToDate (s : State) (index : String) : Prop := s.files (indexFileName index) = view s.store index

structure Inv (s : State) : Prop where
  covered : ∀ index, UpToDate s index ∨ Marked s index ∨ index ∈ s.flush.batch
  snapshot : ∀ batch c, s.flush = .running batch (some c) →
    c.scope = view s.store c.index ∨ Marked s c.index
  named : ∀ name, s.files name ≠ none → ∃ index, name = indexFileName index

/-! ### Opening -/

theorem get?_fileNames (scopes : List (String × Scope)) (index : String) :
    Assoc.get? (scopes.map fun m => (indexFileName m.1, m.2)) (indexFileName index) =
      Assoc.get? scopes index := by
  induction scopes with
  | nil => rfl
  | cons m rest ih =>
    rw [List.map_cons, Assoc.get?_cons, Assoc.get?_cons, ih]
    simp only [indexFileName_injective.eq_iff]

theorem written_files {scopes : List (String × Scope)} (h : Assoc.Distinct scopes) :
    Written (scopes.map fun m => (indexFileName m.1, m.2)) where
  distinct := by
    have hkeys : (scopes.map fun m => (indexFileName m.1, m.2)).map (·.1) = (scopes.map (·.1)).map indexFileName := by
      rw [List.map_map, List.map_map]
      rfl
    unfold Assoc.Distinct
    rw [hkeys]
    exact h.map indexFileName_injective
  named := by
    intro name hname
    obtain ⟨_, hfile, rfl⟩ := List.mem_map.mp hname
    obtain ⟨m, _, rfl⟩ := List.mem_map.mp hfile
    exact ⟨m.1, .inl rfl⟩

theorem loadStore_eq {scopes : List (String × Scope)} (h : Assoc.Distinct scopes) (hne : ∀ m ∈ scopes, m.1 ≠ "") :
    loadStore (scopes.map fun m => (indexFileName m.1, m.2)) = Assoc.get? scopes := by
  funext index
  rw [loadStore, loadStoreFromDir_eq (written_files h), get?_fileNames]
  split
  · rename_i hindex
    symm
    apply Assoc.get?_eq_none_iff.mpr
    intro hmem
    obtain ⟨m, hm, hkey⟩ := List.mem_map.mp hmem
    exact hne m hm (hkey.trans hindex)
  · cases Assoc.get? scopes index <;> rfl

theorem Opened.inv {s : State} (h : Opened s) : Inv s := by
  obtain ⟨scopes, hdistinct, hne, hstore, hfiles, -, -, hidle⟩ := h
  refine ⟨fun index => .inl ?_, fun batch c hc => ?_, fun name hname => ?_⟩
  · unfold UpToDate view
    rw [hfiles, hstore, get?_fileNames, loadStore_eq hdistinct fun m hm => (hne m hm).1]
    cases hget : Assoc.get? scopes index with
    | none => rfl
    | some scope =>
      have hscope : scope ≠ [] := (hne _ (Assoc.mem_of_get? hget)).2
      exact (Option.filter_eq_some_iff.mpr ⟨rfl, by simpa using hscope⟩).symm
  · rw [hidle] at hc
    cases hc
  · rw [hfiles] at hname
    obtain ⟨scope, hget⟩ := Option.ne_none_iff_exists'.mp hname
    obtain ⟨m, -, hm⟩ := List.mem_map.mp (Assoc.mem_of_get? hget)
    cases hm
    exact ⟨m.1, rfl⟩

/-! ### Steps -/

theorem mem_keys_insert {dirty : List Mark} {key index : String} {op : DirtyOp} :
    index ∈ (Assoc.insert dirty key op).map (·.1) ↔ index = key ∨ index ∈ dirty.map (·.1) := by
  rw [Assoc.keys_insert]
  split
  · rename_i hmem
    constructor
    · exact .inr
    · rintro (rfl | h)
      · exact hmem
      · exact h
  · rw [List.mem_append, List.mem_singleton]
    exact or_comm

theorem mem_keys_requeue {dirty : List Mark} {key index : String} {op : DirtyOp} :
    index ∈ (requeue dirty key op).map (·.1) ↔ index = key ∨ index ∈ dirty.map (·.1) := by
  unfold requeue
  split
  · rename_i hsome
    constructor
    · exact .inr
    · rintro (rfl | h)
      · by_contra hmem
        rw [← Assoc.get?_eq_none_iff] at hmem
        simp [hmem] at hsome
      · exact h
  · exact mem_keys_insert

section Step
variable {s : State}

/-- Marks are not lost by an operation, and the scope it changes gets one. -/
theorem inv_operate (h : Inv s) (op : Operation) :
    Inv { s with store := (op.apply s.store).1, marking := s.marking ++ (op.apply s.store).2.toList } := by
  have hchanged : ∀ index, view (op.apply s.store).1 index = view s.store index ∨
      index ∈ (s.marking ++ (op.apply s.store).2.toList).map (·.1) := by
    intro index
    by_cases hview : view (op.apply s.store).1 index = view s.store index
    · exact .inl hview
    · obtain ⟨d, hd⟩ := op.view_apply s.store index hview
      refine .inr ?_
      rw [hd]
      simp
  have hmarked : ∀ index, Marked s index →
      index ∈ s.dirty.map (·.1) ∨ index ∈ (s.marking ++ (op.apply s.store).2.toList).map (·.1) := by
    rintro index (hd | hm)
    · exact .inl hd
    · rw [List.map_append, List.mem_append]
      exact .inr (.inl hm)
  refine ⟨fun index => ?_, fun batch c hc => ?_, h.named⟩
  · rcases hchanged index with hview | hmark
    · rcases h.covered index with hup | hm | hb
      · exact .inl (hup.trans hview.symm)
      · exact .inr (.inl (hmarked index hm))
      · exact .inr (.inr hb)
    · exact .inr (.inl (.inr hmark))
  · rcases hchanged c.index with hview | hmark
    · rcases h.snapshot batch c hc with hsnap | hm
      · exact .inl (hsnap.trans hview.symm)
      · exact .inr (hmarked c.index hm)
    · exact .inr (.inr hmark)

theorem inv_mark (h : Inv s) {before after : List Mark} {m : Mark} (hm : s.marking = before ++ m :: after) :
    Inv { s with dirty := Assoc.insert s.dirty m.1 m.2, marking := before ++ after } := by
  have hmarked : ∀ index, Marked s index →
      Marked { s with dirty := Assoc.insert s.dirty m.1 m.2, marking := before ++ after } index := by
    intro index hmark
    unfold Marked at hmark ⊢
    rw [hm] at hmark
    simp only [mem_keys_insert]
    rcases hmark with hd | hmark
    · exact .inl (.inr hd)
    · rw [List.map_append, List.mem_append, List.map_cons, List.mem_cons] at hmark
      rw [List.map_append, List.mem_append]
      rcases hmark with hb | rfl | ha
      · exact .inr (.inl hb)
      · exact .inl (.inl rfl)
      · exact .inr (.inr ha)
  refine ⟨fun index => ?_, fun batch c hc => ?_, h.named⟩
  · rcases h.covered index with hup | hmark | hb
    · exact .inl hup
    · exact .inr (.inl (hmarked index hmark))
    · exact .inr (.inr hb)
  · exact (h.snapshot batch c hc).imp_right (hmarked c.index)

/-- Changing only who holds the lock. -/
theorem inv_flush (h : Inv s) {flush : Flush} (hb : s.flush.batch = flush.batch)
    (hnone : ∀ batch c, flush ≠ .running batch (some c)) : Inv { s with flush := flush } :=
  ⟨fun index => by
    rcases h.covered index with hup | hmark | hbatch
    · exact .inl hup
    · exact .inr (.inl hmark)
    · exact .inr (.inr (hb ▸ hbatch)),
    fun batch c hc => absurd hc (hnone batch c), h.named⟩

variable {batch : List Mark}

theorem inv_drain (h : Inv s) (hs : s.flush = .scheduled) (hb : batch.Perm s.dirty) :
    Inv { s with dirty := [], flush := .running batch none } := by
  refine ⟨fun index => ?_, fun batch c hc => (by cases hc), h.named⟩
  rcases h.covered index with hup | (hd | hm) | hbatch
  · exact .inl hup
  · exact .inr (.inr ((hb.map _).mem_iff.mpr hd))
  · exact .inr (.inl (.inr hm))
  · rw [hs] at hbatch
    cases hbatch

theorem inv_read (h : Inv s) {m : Mark} (hs : s.flush = .running (m :: batch) none) :
    Inv { s with flush := .running batch (some ⟨m.1, m.2, view s.store m.1⟩) } := by
  refine ⟨fun index => ?_, fun batch c hc => ?_, h.named⟩
  · rcases h.covered index with hup | hmark | hbatch
    · exact .inl hup
    · exact .inr (.inl hmark)
    · rw [hs] at hbatch
      exact .inr (.inr hbatch)
  · cases hc
    exact .inl rfl

theorem inv_write (h : Inv s) {c : Snapshot} (hs : s.flush = .running batch (some c)) :
    Inv { s with
      files := Function.update s.files (indexFileName c.index) c.scope
      flush := .running batch none } := by
  refine ⟨fun index => ?_, fun batch c hc => (by cases hc), fun name hname => ?_⟩
  · by_cases hindex : index = c.index
    · subst hindex
      rcases h.snapshot batch c hs with hsnap | hmark
      · exact .inl ((Function.update_self ..).trans hsnap)
      · exact .inr (.inl hmark)
    · rcases h.covered index with hup | hmark | hbatch
      · have hname : indexFileName index ≠ indexFileName c.index :=
          fun heq => hindex (indexFileName_injective heq)
        exact .inl ((Function.update_of_ne hname ..).trans hup)
      · exact .inr (.inl hmark)
      · rw [hs] at hbatch
        exact .inr (.inr ((List.mem_cons.mp hbatch).resolve_left hindex))
  · by_cases heq : name = indexFileName c.index
    · exact ⟨c.index, heq⟩
    · refine h.named name fun hnone => hname ?_
      exact (Function.update_of_ne heq ..).trans hnone

theorem inv_fail (h : Inv s) {c : Snapshot} (hs : s.flush = .running batch (some c)) :
    Inv { s with dirty := requeue s.dirty c.index c.op, flush := .running batch none } := by
  refine ⟨fun index => ?_, fun batch c hc => (by cases hc), h.named⟩
  rcases h.covered index with hup | (hd | hm) | hbatch
  · exact .inl hup
  · exact .inr (.inl (.inl (mem_keys_requeue.mpr (.inr hd))))
  · exact .inr (.inl (.inr hm))
  · rw [hs] at hbatch
    rcases List.mem_cons.mp hbatch with rfl | hbatch
    · exact .inr (.inl (.inl (mem_keys_requeue.mpr (.inl rfl))))
    · exact .inr (.inr hbatch)

/-- Every step keeps the invariant. -/
theorem Step.inv {s s' : State} (hstep : Step s s') (h : Inv s) : Inv s' := by
  cases hstep with
  | operate op => exact inv_operate h op
  | mark before after m hm => exact inv_mark h hm
  | lock hs => exact inv_flush h (by rw [hs]; rfl) (fun _ _ => by simp)
  | leave hs => exact inv_flush h (by rw [hs]; rfl) (fun _ _ => by simp)
  | spawn hs hd => exact inv_flush h (by rw [hs]; rfl) (fun _ _ => by simp)
  | drain hs batch hb => exact inv_drain h hs hb
  | read m batch hs => exact inv_read h hs
  | write batch c hs => exact inv_write h hs
  | fail batch c hs => exact inv_fail h hs
  | finish hs => exact inv_flush h (by rw [hs]; rfl) (fun _ _ => by simp)

end Step

theorem inv_of_reachable {s : State} (h : kvSystem.Reachable s) : Inv s :=
  h.invariant (I := Inv) (fun _ => Opened.inv) fun _ _ _ hinv hstep => Step.inv hstep hinv

/-! ### No update is lost -/

/-- No operation is between its steps, no flush has the lock, and nothing is dirty. -/
structure Quiet (s : State) : Prop where
  marking : s.marking = []
  flush : s.flush = .idle
  dirty : s.dirty = []

/-- In every reachable state a scope whose file is out of date is dirty, in the batch, or about to be
marked; so in a quiet state the files are the non-empty scopes, each with its contents. -/
theorem flush_loses_nothing {s : State} (h : kvSystem.Reachable s) :
    (∀ index, s.files (indexFileName index) ≠ view s.store index →
      index ∈ s.dirty.map (·.1) ∨ index ∈ s.flush.batch ∨ index ∈ s.marking.map (·.1)) ∧
    (Quiet s → ∀ name scope, s.files name = some scope ↔
      ∃ index, name = indexFileName index ∧ s.store index = some scope ∧ scope ≠ []) := by
  have hinv := inv_of_reachable h
  constructor
  · intro index hne
    rcases hinv.covered index with hup | (hd | hm) | hb
    · exact absurd hup hne
    · exact .inl hd
    · exact .inr (.inr hm)
    · exact .inr (.inl hb)
  · intro hquiet
    have hup : ∀ index, s.files (indexFileName index) = view s.store index := by
      intro index
      rcases hinv.covered index with hup | (hd | hm) | hb
      · exact hup
      · rw [hquiet.dirty] at hd
        cases hd
      · rw [hquiet.marking] at hm
        cases hm
      · rw [hquiet.flush] at hb
        cases hb
    have hview : ∀ index scope, view s.store index = some scope ↔ s.store index = some scope ∧ scope ≠ [] := by
      intro index scope
      unfold view
      rw [Option.filter_eq_some_iff]
      simp
    intro name scope
    constructor
    · intro hfile
      obtain ⟨index, rfl⟩ := hinv.named name (by rw [hfile]; simp)
      rw [hup] at hfile
      exact ⟨index, rfl, (hview index scope).mp hfile⟩
    · rintro ⟨index, rfl, hscope⟩
      rw [hup]
      exact (hview index scope).mpr hscope

def emptyState : State := ⟨fun _ => none, [], fun _ => none, [], .idle⟩

/-- An operation has changed the empty store and has not marked its scope. -/
def afterSet : State :=
  { emptyState with
    store := (Operation.apply (.set "a" "k" .null) emptyState.store).1
    marking := [("a", .upsert)] }

theorem afterSet_reachable : kvSystem.Reachable afterSet := by
  have hopen : Opened emptyState :=
    ⟨[], List.nodup_nil, fun m hm => (by cases hm), rfl, rfl, rfl, rfl, rfl⟩
  exact (System.Reachable.init (S := kvSystem) hopen).step (Step.operate emptyState (.set "a" "k" .null))

theorem flush_loses_nothing_afterSet :
    kvSystem.Reachable afterSet ∧ "a" ∈ afterSet.marking.map (·.1) := by
  have hdiffers : afterSet.files (indexFileName "a") ≠ view afterSet.store "a" := by
    show none ≠ some [("k", Json.null)]
    simp
  refine ⟨afterSet_reachable, ?_⟩
  rcases (flush_loses_nothing afterSet_reachable).1 "a" hdiffers with hd | hb | hm
  · cases hd
  · cases hb
  · exact hm

end Iii.Kv
