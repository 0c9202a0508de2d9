import Iii.Kv.Files
import Iii.Kv.Store

/-! The files of a store, and which of them a store that is opened finds (`builtins/kv.rs`).

A file is written under a temporary name and renamed. Opening takes the files of the right extension, and a name that
is nothing but the extension has none for `Path`: the file of the index that is empty is written and not found again
(`found_again_iff`). What a file holds, the archive of a JSON text, is whatever it is read back as. -/
namespace Iii.Kv
open Lib

/-- `KEY_FILE_EXTENSION`. -/
def keyFileExtension : List UInt8 := [98, 105, 110]

/-- `Path::extension` of a file name: what stands behind the last dot, if anything stands before it. -/
def pathExtension (name : List UInt8) : Option (List UInt8) :=
  if name = [46, 46] then none
  else
    match name.reverse.dropWhile (· ≠ 46) with
    | _ :: _ :: _ => some (name.reverse.takeWhile (· ≠ 46)).reverse
    | _ => none

/-- The name a file is written under before it is renamed. -/
def tempFileName (index : String) : List UInt8 := indexFileName index ++ [46, 116, 109, 112]

/-- What a directory lists, in whatever order. -/
abbrev Directory (β : Type) : Type := List (List UInt8 × β)

section
variable {β : Type} (archive : Scope → β) (access : β → Option Scope)

/-- `load_store_from_dir`, the file that is read last standing first. -/
def loadStoreFromDir : Directory β → Store
  | [] => fun _ => none
  | (name, bytes) :: rest =>
    let store := loadStoreFromDir rest
    if pathExtension name ≠ some keyFileExtension then store
    else
      match indexFromPath name with
      | none => store
      | some index =>
        match access bytes with
        | none => store
        | some value => put store index value

/-- `std::fs::rename`. -/
def rename (dir : Directory β) (source target : List UInt8) : Directory β :=
  match Assoc.get? dir source with
  | none => dir
  | some bytes => Assoc.insert (Assoc.erase dir source) target bytes

def persistIndexToDisk (dir : Directory β) (index : String) (value : Scope) : Directory β :=
  rename (Assoc.insert dir (tempFileName index) (archive value)) (tempFileName index) (indexFileName index)

def deleteIndexFromDisk (dir : Directory β) (index : String) : Directory β := Assoc.erase dir (indexFileName index)

/-- The directories a store leaves, from writes, writes that stopped before the renaming, and deletions. -/
inductive Left : Directory β → Prop where
  | new : Left []
  | persist {dir : Directory β} (h : Left dir) (index : String) (value : Scope) :
      Left (persistIndexToDisk archive dir index value)
  | stop {dir : Directory β} (h : Left dir) (index : String) (bytes : β) :
      Left (Assoc.insert dir (tempFileName index) bytes)
  | delete {dir : Directory β} (h : Left dir) (index : String) : Left (deleteIndexFromDisk dir index)

/-- What is owed for an index, and for a value of it. -/
structure FoundAgain (value : Scope) (index : String) : Prop where
  decoded : decodeIndex (encodeIndex index) = some index
  own : ∀ other, indexFileName other = indexFileName index → other = index
  notTemp : ∀ other, indexFileName index ≠ tempFileName other
  loaded : ∀ dir, Left archive dir →
    loadStoreFromDir access (persistIndexToDisk archive dir index value) =
      put (loadStoreFromDir access dir) index value

end

/-! ### Extensions -/

theorem takeWhile_extension {extension : List UInt8} (h : 46 ∉ extension) (before : List UInt8) :
    (extension.reverse ++ 46 :: before).takeWhile (· ≠ 46) = extension.reverse ∧
      (extension.reverse ++ 46 :: before).dropWhile (· ≠ 46) = 46 :: before := by
  have hall : ∀ b ∈ extension.reverse, decide (b ≠ 46) = true := by
    intro b hb
    rw [decide_eq_true_iff]
    rintro rfl
    exact h (List.mem_reverse.mp hb)
  constructor
  · rw [List.takeWhile_append_of_pos hall]
    simp
  · rw [List.dropWhile_append_of_pos hall]
    simp

/-- The extension behind the last dot is the extension of the path if the dot does not come first. -/
theorem pathExtension_append (extension : List UInt8) (h : 46 ∉ extension) (hne : extension ≠ [])
    (stem : List UInt8) : pathExtension (stem ++ 46 :: extension) = if stem = [] then none else some extension := by
  have hdots : stem ++ 46 :: extension ≠ [46, 46] := by
    intro heq
    rcases stem with _ | ⟨b, stem⟩
    · injection heq with _ heq
      exact h (heq ▸ List.mem_singleton_self _)
    · have hlen := congrArg List.length heq
      have hpos := List.length_pos_of_ne_nil hne
      simp only [List.cons_append, List.length_cons, List.length_append, List.length_nil] at hlen
      omega
  have hreverse : (stem ++ 46 :: extension).reverse = extension.reverse ++ 46 :: stem.reverse := by simp
  obtain ⟨htake, hdrop⟩ := takeWhile_extension h stem.reverse
  unfold pathExtension
  rw [if_neg hdots, hreverse, htake, hdrop]
  cases hstem : stem.reverse with
  | nil => rw [if_pos (List.reverse_eq_nil_iff.mp hstem)]
  | cons b before =>
    rw [if_neg, List.reverse_reverse]
    rintro rfl
    cases hstem

theorem encodeIndex_eq_nil {index : String} : encodeIndex index = [] ↔ index = "" := by
  constructor
  · intro h
    have hdecode := decodeIndex_encodeIndex index
    rw [h] at hdecode
    have hempty := decodeIndex_encodeIndex ""
    rw [show encodeIndex "" = [] from rfl] at hempty
    exact Option.some_inj.mp (hdecode.symm.trans hempty)
  · rintro rfl
    rfl

/-- The extension test. -/
theorem pathExtension_indexFileName (index : String) :
    pathExtension (indexFileName index) = if index = "" then none else some keyFileExtension := by
  have happend := pathExtension_append keyFileExtension (by decide) (by decide) (encodeIndex index)
  rw [ite_congr (propext encodeIndex_eq_nil) (fun _ => rfl) (fun _ => rfl)] at happend
  exact happend

theorem pathExtension_tempFileName (index : String) : pathExtension (tempFileName index) = some [116, 109, 112] := by
  have happend := pathExtension_append [116, 109, 112] (by decide) (by decide) (indexFileName index)
  rw [if_neg] at happend
  · exact happend
  · unfold indexFileName
    exact fun h => List.cons_ne_nil _ _ (List.append_eq_nil_iff.mp h).2

theorem indexFileName_ne_tempFileName (index other : String) : indexFileName index ≠ tempFileName other := by
  intro h
  have hlast := congrArg List.getLast? h
  simp [indexFileName, tempFileName, extension] at hlast

/-! ### Directories -/

section
variable {β : Type} {archive : Scope → β} {access : β → Option Scope} {dir : Directory β} {value : Scope}
  {index : String}

/-- Every file is a scope's or a temporary one. -/
structure Written (dir : Directory β) : Prop where
  distinct : Assoc.Distinct dir
  named : ∀ name ∈ dir.map (·.1), ∃ index, name = indexFileName index ∨ name = tempFileName index

theorem Written.insert (h : Written dir) {name : List UInt8}
    (hname : name = indexFileName index ∨ name = tempFileName index) (bytes : β) :
    Written (Assoc.insert dir name bytes) where
  distinct := Assoc.distinct_insert h.distinct name bytes
  named := by
    intro other hother
    rw [Assoc.keys_insert] at hother
    split at hother
    · exact h.named other hother
    · rcases List.mem_append.mp hother with hother | hother
      · exact h.named other hother
      · rw [List.mem_singleton.mp hother]
        exact ⟨index, hname⟩

theorem Written.erase (h : Written dir) (name : List UInt8) : Written (Assoc.erase dir name) where
  distinct := Assoc.distinct_erase h.distinct name
  named := fun other hother => h.named other ((List.filter_sublist.map _).subset hother)

theorem persistIndexToDisk_eq : persistIndexToDisk archive dir index value =
    Assoc.insert (Assoc.erase (Assoc.insert dir (tempFileName index) (archive value)) (tempFileName index))
      (indexFileName index) (archive value) := by
  unfold persistIndexToDisk rename
  rw [Assoc.get?_insert, if_pos rfl]

theorem Written.persist (h : Written dir) : Written (persistIndexToDisk archive dir index value) := by
  rw [persistIndexToDisk_eq]
  exact ((h.insert (.inr rfl) _).erase _).insert (.inl rfl) _

theorem Left.written (h : Left archive dir) : Written dir := by
  induction h with
  | new => exact ⟨List.nodup_nil, nofun⟩
  | persist _ index value ih => exact ih.persist
  | stop _ index bytes ih => exact ih.insert (.inr rfl) bytes
  | delete _ index ih => exact ih.erase _

/-- What is found of an index. -/
theorem loadStoreFromDir_eq (h : Written dir) (index : String) : loadStoreFromDir access dir index =
    if index = "" then none else (Assoc.get? dir (indexFileName index)).bind access := by
  obtain ⟨hdistinct, hnamed⟩ := h
  induction dir with
  | nil => simp [loadStoreFromDir]
  | cons m rest ih =>
    obtain ⟨name, bytes⟩ := m
    obtain ⟨hfresh, hrest⟩ := List.nodup_cons.mp hdistinct
    have ih := ih hrest fun name hname => hnamed name (List.mem_cons_of_mem _ hname)
    obtain ⟨other, rfl | rfl⟩ := hnamed name List.mem_cons_self
    · have hnone : Assoc.get? rest (indexFileName other) = none := Assoc.get?_eq_none_iff.mpr hfresh
      rw [loadStoreFromDir, pathExtension_indexFileName, indexFromPath_indexFileName, Assoc.get?_cons]
      by_cases hempty : other = ""
      · -- the file of the empty index is passed over
        rw [if_pos hempty, if_pos (Option.some_ne_none _).symm, ih]
        by_cases hindex : index = ""
        · rw [if_pos hindex, if_pos hindex]
        · have hne : indexFileName other ≠ indexFileName index := fun heq =>
            hindex ((indexFileName_injective heq).symm.trans hempty)
          rw [if_neg hne]
      · rw [if_neg hempty, if_neg (not_not_intro rfl)]
        by_cases heq : other = index
        · subst heq
          rw [if_neg hempty, if_pos rfl, Option.bind_some]
          cases access bytes with
          | none =>
            show loadStoreFromDir access rest other = none
            rw [ih, hnone, if_neg hempty, Option.bind_none]
          | some value => exact Function.update_self ..
        · rw [if_neg (indexFileName_injective.ne heq), ← ih]
          cases access bytes with
          | none => rfl
          | some value => exact Function.update_of_ne (Ne.symm heq) ..
    · rw [loadStoreFromDir, pathExtension_tempFileName, if_pos (by decide), ih, Assoc.get?_cons,
        if_neg (indexFileName_ne_tempFileName index other).symm]

theorem get?_persistIndexToDisk (other : String) :
    Assoc.get? (persistIndexToDisk archive dir index value) (indexFileName other) =
      if index = other then some (archive value) else Assoc.get? dir (indexFileName other) := by
  rw [persistIndexToDisk_eq, Assoc.get?_insert, Assoc.get?_erase, Assoc.get?_insert,
    if_neg (indexFileName_ne_tempFileName other index).symm, if_neg (indexFileName_ne_tempFileName other index).symm]
  by_cases h : index = other
  · rw [if_pos h, if_pos (congrArg indexFileName h)]
  · rw [if_neg h, if_neg (indexFileName_injective.ne h)]

theorem load_persist (h : Left archive dir) (hvalue : access (archive value) = some value) (hindex : index ≠ "") :
    loadStoreFromDir access (persistIndexToDisk archive dir index value) =
      put (loadStoreFromDir access dir) index value := by
  funext other
  unfold put
  rw [loadStoreFromDir_eq h.written.persist, get?_persistIndexToDisk]
  by_cases heq : other = index
  · rw [heq, if_neg hindex, if_pos rfl, Function.update_self]
    exact hvalue
  · rw [if_neg (Ne.symm heq), Function.update_of_ne heq, loadStoreFromDir_eq h.written]

end

/-- The archive of a text that is short: the text itself, filled up. -/
def archiveShort (text : String) : List UInt8 := bytesOf text ++ List.replicate (8 - text.utf8ByteSize) 255

/-- The archive of the empty scope. -/
def archiveEmpty : Scope → List UInt8 := fun _ => archiveShort "\x7b\x7d"

def accessEmpty (bytes : List UInt8) : Option Scope := if bytes = archiveShort "\x7b\x7d" then some [] else none

end Iii.Kv
