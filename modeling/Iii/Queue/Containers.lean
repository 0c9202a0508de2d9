import Iii.Lib.Occurrences
import Iii.Lib.SortedMap
import Mathlib.Data.Finset.Basic
import Mathlib.Data.List.Sort

/-! The containers of `QueueKvStore` (`builtins/queue_kv.rs`) as they are held: deques under their keys, and maps from
scores to sets of members.

The queues read a store through `Iii.Queue.items`, for which a key without a container is one whose container is
empty. That an empty one is never left behind, and no member in two buckets, is what every operation has to restore
(`Tidy`). A range of scores is the `range` of a `BTreeMap`, which panics if its bounds are crossed. -/
namespace Iii.QueueKv
open Lib

/-- `BTreeMap<i64, HashSet<String>>`. -/
abbrev SortedSet : Type := SortedMap Int (Finset String)

structure Store where
  lists : String → Option (List String)
  sortedSets : String → Option SortedSet

/-! ### Lists -/

/-- `retain` with the counter of what it has removed. -/
def retainCount (value : String) (count : Nat) : List String → Nat → Nat × List String
  | [], removed => (removed, [])
  | item :: rest, removed =>
    if removed < count ∧ item = value then retainCount value count rest (removed + 1)
    else
      let (removed, kept) := retainCount value count rest removed
      (removed, item :: kept)

/-- The loop over the indices below `i`, from the back. -/
def collectIndices (list : List String) (value : String) (count : Nat) : Nat → Nat → List Nat → Nat × List Nat
  | 0, removed, indices => (removed, indices)
  | i + 1, removed, indices =>
    if removed ≥ count then (removed, indices)
    else if list[i]? = some value then collectIndices list value count i (removed + 1) (indices ++ [i])
    else collectIndices list value count i removed indices

/-- How many are removed, and the list without them. -/
def removeItems (list : List String) (count : Int) (value : String) : Nat × List String :=
  if count > 0 then retainCount value count.toNat list 0
  else if count < 0 then
    let (removed, indices) := collectIndices list value count.natAbs list.length 0 []
    (removed, (indices.mergeSort).reverse.foldl List.eraseIdx list)
  else
    let kept := list.filter (· ≠ value)
    (list.length - kept.length, kept)

/-! ### Sorted sets -/

namespace SortedSet

/-- What `zadd` does first: the member leaves every bucket, and the buckets that are empty go. -/
def leave (set : SortedSet) (member : String) : SortedSet :=
  (set.map (·.erase member)).filter fun _ members => members ≠ ∅

def add (set : SortedSet) (score : Int) (member : String) : SortedSet :=
  let set := leave set member
  set.insert score (insert member ((set.get? score).getD ∅))

/-- The `retain` of `zrem`. -/
def drop (set : SortedSet) (member : String) : SortedSet :=
  set.filterMap fun _ members => if members.erase member = ∅ then none else some (members.erase member)

end SortedSet

namespace Store

/-- An emptied list goes with its key. -/
def leaveList (s : Store) (key : String) (list : List String) : Store :=
  { s with lists := Function.update s.lists key (if list.isEmpty then none else some list) }

def lpush (s : Store) (key value : String) : Store :=
  { s with lists := Function.update s.lists key (some (value :: (s.lists key).getD [])) }

def rpush (s : Store) (key value : String) : Store :=
  { s with lists := Function.update s.lists key (some ((s.lists key).getD [] ++ [value])) }

def rpop (s : Store) (key : String) : Option String × Store :=
  match s.lists key with
  | none => (none, s)
  | some list => (list.getLast?, s.leaveList key list.dropLast)

def lrem (s : Store) (key : String) (count : Int) (value : String) : Nat × Store :=
  match s.lists key with
  | none => (0, s)
  | some list =>
    let (removed, list) := removeItems list count value
    (removed, s.leaveList key list)

def lremoveFirstBy (s : Store) (key : String) (predicate : String → Bool) : Option String × Store :=
  match s.lists key with
  | none => (none, s)
  | some list =>
    match list.findIdx? predicate with
    | none => (none, s)
    | some pos => (list[pos]?, s.leaveList key (list.eraseIdx pos))

def zadd (s : Store) (key : String) (score : Int) (member : String) : Store :=
  { s with
    sortedSets := Function.update s.sortedSets key
      (some (SortedSet.add ((s.sortedSets key).getD .empty) score member)) }

def zrem (s : Store) (key member : String) : Bool × Store :=
  match s.sortedSets key with
  | none => (false, s)
  | some set =>
    let found := set.entries.any fun e => decide (member ∈ e.2)
    let set := SortedSet.drop set member
    (found, { s with sortedSets := Function.update s.sortedSets key (if set.entries.isEmpty then none else some set) })

/-- The members of each bucket in the order the set happens to list them in; none is a panic. -/
def zrangebyscore (s : Store) (iter : Finset String → List String) (key : String) (min max : Int) :
    Option (List String) :=
  match s.sortedSets key with
  | none => some []
  | some set =>
    if min > max then none
    else some ((set.entries.filter fun e => min ≤ e.1 ∧ e.1 ≤ max).flatMap fun e => iter e.2)

end Store

inductive Call where
  | lpush (key value : String)
  | rpush (key value : String)
  | rpop (key : String)
  | lrem (key : String) (count : Int) (value : String)
  | lremoveFirstBy (key : String) (predicate : String → Bool)
  | zadd (key : String) (score : Int) (member : String)
  | zrem (key member : String)

def Store.call (s : Store) : Call → Store
  | .lpush key value => s.lpush key value
  | .rpush key value => s.rpush key value
  | .rpop key => (s.rpop key).2
  | .lrem key count value => (s.lrem key count value).2
  | .lremoveFirstBy key predicate => (s.lremoveFirstBy key predicate).2
  | .zadd key score member => s.zadd key score member
  | .zrem key member => (s.zrem key member).2

/-- The calls so far, the last one first. -/
def after : List Call → Store
  | [] => ⟨fun _ => none, fun _ => none⟩
  | c :: past => (after past).call c

/-! ### What is owed -/

/-- The member stands in the bucket of the score. -/
def SortedSet.Scores (set : SortedSet) (member : String) (score : Int) : Prop :=
  ∃ members, set.get? score = some members ∧ member ∈ members

/-- No bucket is empty, and no member in two. -/
structure SortedSet.Tidy (set : SortedSet) : Prop where
  nonempty : ∀ score, set.get? score ≠ some ∅
  once : ∀ member score score', SortedSet.Scores set member score → SortedSet.Scores set member score' → score = score'

structure Tidy (s : Store) : Prop where
  lists : ∀ key, s.lists key ≠ some []
  sets : ∀ key set, s.sortedSets key = some set → set.entries ≠ [] ∧ SortedSet.Tidy set

def Store.HasScore (s : Store) (key member : String) (score : Int) : Prop :=
  ∃ set, s.sortedSets key = some set ∧ SortedSet.Scores set member score

/-- The places of a value that a count takes: the first, the last or all. -/
def takenBy (count : Int) (places : List Nat) : List Nat :=
  if count > 0 then places.take count.toNat
  else if count < 0 then places.drop (places.length - count.natAbs)
  else places

/-- The members with a score in the range, each once, the scores ascending. -/
def InRange (s : Store) (key : String) (min max : Int) (result : List String) : Prop :=
  ∃ listing : List (Int × String), result = listing.map (·.2) ∧ listing.Nodup ∧
    listing.Pairwise (fun e e' => e.1 ≤ e'.1) ∧
    ∀ score member, (score, member) ∈ listing ↔ s.HasScore key member score ∧ min ≤ score ∧ score ≤ max

structure KeepsRight (iter : Finset String → List String) (s : Store) (key : String) (min max : Int) : Prop where
  tidy : Tidy s
  moves : ∀ key score member key' member' score', (s.zadd key score member).HasScore key' member' score' ↔
    if key' = key ∧ member' = member then score' = score else s.HasScore key' member' score'
  removes : ∀ key count value,
    let list := (s.lists key).getD []
    let gone := takenBy count (occurrences value 0 list)
    (s.lrem key count value).1 = gone.length ∧
      ∀ key', ((s.lrem key count value).2.lists key').getD [] =
        if key' = key then without gone 0 list else (s.lists key').getD []
  ranges : ∃ result, s.zrangebyscore iter key min max = some result ∧ InRange s key min max result

/-! ### What is removed from a list -/

section
variable {value : String} {count : Nat}

theorem retainCount_eq (k : Nat) (l : List String) (removed : Nat) :
    retainCount value count l removed =
      (removed + ((occurrences value k l).take (count - removed)).length,
        without ((occurrences value k l).take (count - removed)) k l) := by
  induction l generalizing k removed with
  | nil => simp [retainCount, occurrences, without]
  | cons item rest ih =>
    rw [retainCount]
    by_cases hitem : item = value
    · rw [occurrences, if_pos hitem]
      by_cases hlt : removed < count
      · obtain ⟨n, hn⟩ : ∃ n, count - removed = n + 1 := ⟨count - removed - 1, by omega⟩
        have hrest : count - (removed + 1) = n := by omega
        rw [if_pos ⟨hlt, hitem⟩, ih (k + 1), hrest, hn, List.take_succ_cons, without, if_pos List.mem_cons_self,
          List.length_cons]
        refine Prod.ext (by dsimp only; omega) ?_
        apply without_congr
        intro i hle _
        rw [List.mem_cons]
        constructor
        · exact .inr
        · intro hmem
          exact hmem.resolve_left (by omega)
      · have hzero : count - removed = 0 := by omega
        rw [if_neg fun h => hlt h.1, ih (k + 1), hzero]
        simp [without]
    · have hk : k ∉ (occurrences value (k + 1) rest).take (count - removed) := fun hmem =>
        Nat.not_succ_le_self k (le_of_mem_occurrences (List.mem_of_mem_take hmem))
      rw [if_neg fun h => hitem h.2, occurrences, if_neg hitem, ih (k + 1), without, if_neg hk]

theorem collectIndices_eq {list : List String} {i : Nat} (hi : i ≤ list.length) (removed : Nat) (indices : List Nat) :
    collectIndices list value count i removed indices =
      (removed + ((occurrences value 0 (list.take i)).reverse.take (count - removed)).length,
        indices ++ (occurrences value 0 (list.take i)).reverse.take (count - removed)) := by
  induction i generalizing removed indices with
  | zero => simp [collectIndices, occurrences]
  | succ i ih =>
    have hlt : i < list.length := hi
    have hlen : (list.take i).length = i := by rw [List.length_take]; omega
    have hplaces : occurrences value 0 (list.take (i + 1)) =
        occurrences value 0 (list.take i) ++ if list[i] = value then [i] else [] := by
      rw [List.take_succ_eq_append_getElem hlt, occurrences_append, hlen, Nat.zero_add, occurrences, occurrences]
    rw [collectIndices]
    by_cases hfull : removed ≥ count
    · have hzero : count - removed = 0 := by omega
      rw [if_pos hfull, hzero]
      simp
    · obtain ⟨n, hn⟩ : ∃ n, count - removed = n + 1 := ⟨count - removed - 1, by omega⟩
      have hrest : count - (removed + 1) = n := by omega
      rw [if_neg hfull, List.getElem?_eq_getElem hlt, hplaces]
      by_cases hitem : list[i] = value
      · rw [if_pos (congrArg some hitem), if_pos hitem, ih (Nat.le_of_lt hlt), hrest, hn, List.reverse_append,
          List.reverse_singleton, List.singleton_append, List.take_succ_cons, List.length_cons]
        refine Prod.ext (by dsimp only; omega) ?_
        dsimp only
        rw [List.append_assoc, List.singleton_append]
      · rw [if_neg fun h => hitem (Option.some_inj.mp h), if_neg hitem, ih (Nat.le_of_lt hlt), List.append_nil]

/-- Indices that were collected from the back stand in that order again when they have been sorted. -/
theorem reverse_mergeSort {indices : List Nat} (h : indices.Pairwise (· > ·)) :
    indices.mergeSort.reverse = indices := by
  have hsorted : indices.mergeSort.Pairwise (· ≤ ·) := by
    have hmerge : indices.mergeSort.Pairwise fun a b => decide (a ≤ b) = true :=
      List.pairwise_mergeSort (fun a b c hab hbc => by simp at *; omega) (fun a b => by simp; omega) indices
    exact hmerge.imp fun hle => of_decide_eq_true hle
  have hreverse : indices.reverse.Pairwise (· ≤ ·) :=
    List.pairwise_reverse.mpr (h.imp fun hlt => Nat.le_of_lt hlt)
  have hperm : indices.mergeSort.Perm indices.reverse :=
    (List.mergeSort_perm indices _).trans (List.reverse_perm indices).symm
  rw [hperm.eq_of_pairwise (fun a b _ _ => Nat.le_antisymm) hsorted hreverse, List.reverse_reverse]

theorem removeItems_eq (list : List String) (count : Int) (value : String) :
    removeItems list count value =
      ((takenBy count (occurrences value 0 list)).length,
        without (takenBy count (occurrences value 0 list)) 0 list) := by
  unfold removeItems takenBy
  split
  · rw [retainCount_eq 0, Nat.zero_add, Nat.sub_zero]
  · split
    · have hdescend : ((occurrences value 0 list).reverse.take count.natAbs).Pairwise (· > ·) :=
        (List.pairwise_reverse.mpr (occurrences_ascend 0 list)).sublist (List.take_sublist _ _)
      rw [collectIndices_eq (Nat.le_refl _), List.take_length, Nat.zero_add, Nat.sub_zero, List.nil_append]
      dsimp only
      rw [reverse_mergeSort hdescend, foldl_eraseIdx hdescend, List.take_reverse, List.length_reverse]
      refine Prod.ext rfl ?_
      exact without_congr fun i _ _ => List.mem_reverse
    · dsimp only
      have hlen : (occurrences value 0 list).length + (list.filter (· ≠ value)).length = list.length :=
        length_occurrences 0 list
      rw [without_occurrences]
      refine Prod.ext ?_ rfl
      dsimp only
      omega

end

/-! ### What a sorted set holds -/

namespace SortedSet
variable {set : SortedSet} {member member' : String} {score score' : Int}

theorem get?_drop : (drop set member).get? score =
    (set.get? score).bind fun members => if members.erase member = ∅ then none else some (members.erase member) :=
  SortedMap.get?_filterMap _

/-- `zadd` and `zrem` take a member out alike. -/
theorem leave_eq : leave set member = drop set member := by
  apply SortedMap.ext
  intro score
  unfold leave
  rw [get?_drop, SortedMap.get?_filter, SortedMap.get?_map]
  cases set.get? score with
  | none => rfl
  | some members =>
    show (some (members.erase member)).filter _ = if members.erase member = ∅ then none else some (members.erase member)
    rw [Option.filter_some]
    by_cases hempty : members.erase member = ∅ <;> simp [hempty]

theorem scores_drop : Scores (drop set member) member' score ↔ Scores set member' score ∧ member' ≠ member := by
  unfold Scores
  rw [get?_drop]
  cases set.get? score with
  | none => simp
  | some members =>
    rw [Option.bind_some]
    constructor
    · rintro ⟨kept, hkept, hmem⟩
      split at hkept
      · cases hkept
      · cases hkept
        obtain ⟨hne, hmem⟩ := Finset.mem_erase.mp hmem
        exact ⟨⟨members, rfl, hmem⟩, hne⟩
    · rintro ⟨⟨held, hheld, hmem⟩, hne⟩
      cases hheld
      have hkept : member' ∈ members.erase member := Finset.mem_erase.mpr ⟨hne, hmem⟩
      exact ⟨_, if_neg (Finset.ne_empty_of_mem hkept), hkept⟩

theorem Tidy.drop (h : Tidy set) (member : String) : Tidy (drop set member) where
  nonempty := by
    intro score
    rw [get?_drop]
    cases set.get? score with
    | none => exact nofun
    | some members =>
      rw [Option.bind_some]
      split
      · exact nofun
      · rename_i hne
        exact fun heq => hne (Option.some_inj.mp heq)
  once := fun member' score score' h₁ h₂ => h.once member' score score' (Iff.mp scores_drop h₁).1 (Iff.mp scores_drop h₂).1

/-- The member stands in the bucket of its new score, and nowhere else. -/
theorem scores_add : Scores (add set score member) member' score' ↔
    if member' = member then score' = score else Scores set member' score' := by
  have hdrop : ∀ other, Scores (leave set member) other score' ↔ Scores set other score' ∧ other ≠ member := by
    intro other
    rw [leave_eq]
    exact scores_drop
  have hinsert : Scores (add set score member) member' score' ↔
      (score' = score ∧ member' = member) ∨ Scores (leave set member) member' score' := by
    unfold Scores add
    dsimp only
    rw [SortedMap.get?_insert]
    by_cases hscore : score = score'
    · subst hscore
      rw [if_pos rfl]
      cases (leave set member).get? score <;> simp
    · rw [if_neg hscore]
      simp [Ne.symm hscore]
  rw [hinsert, hdrop]
  by_cases hmember : member' = member <;> simp [hmember]

theorem Tidy.add (h : Tidy set) (score : Int) (member : String) : Tidy (add set score member) where
  nonempty := by
    intro score'
    unfold SortedSet.add
    dsimp only
    rw [SortedMap.get?_insert]
    split
    · exact fun heq => Finset.insert_ne_empty _ _ (Option.some_inj.mp heq)
    · rw [leave_eq]
      exact (h.drop member).nonempty score'
  once := by
    intro member' score₁ score₂ h₁ h₂
    rw [scores_add] at h₁ h₂
    split at h₁
    · rename_i hmember
      rw [if_pos hmember] at h₂
      rw [h₁, h₂]
    · rename_i hmember
      rw [if_neg hmember] at h₂
      exact h.once member' score₁ score₂ h₁ h₂

theorem entries_add_ne_nil : (add set score member).entries ≠ [] := by
  intro hnil
  have hscore : Scores (add set score member) member score := by
    rw [scores_add, if_pos rfl]
  obtain ⟨members, hget, -⟩ := hscore
  have hmem := SortedMap.mem_entries_iff.mpr hget
  rw [hnil] at hmem
  cases hmem

theorem tidy_empty : Tidy SortedMap.empty := ⟨nofun, fun _ _ _ h => nomatch h⟩

end SortedSet

/-! ### Single calls -/

section
variable {s : Store} {key key' : String}

theorem getD_leaveList (list : List String) : ((s.leaveList key list).lists key').getD [] =
    if key' = key then list else (s.lists key').getD [] := by
  unfold Store.leaveList
  dsimp only
  rw [Function.update_apply]
  split
  · split
    · rename_i hempty
      exact (List.isEmpty_iff.mp hempty).symm
    · rfl
  · rfl

theorem Tidy.leaveList (h : Tidy s) (key : String) (list : List String) : Tidy (s.leaveList key list) where
  lists := by
    intro key'
    unfold Store.leaveList
    dsimp only
    rw [Function.update_apply]
    split
    · split
      · exact nofun
      · rename_i hne
        exact fun heq => hne (List.isEmpty_iff.mpr (Option.some_inj.mp heq))
    · exact h.lists key'
  sets := h.sets

theorem Tidy.setList (h : Tidy s) (key : String) {list : List String} (hne : list ≠ []) :
    Tidy { s with lists := Function.update s.lists key (some list) } where
  lists := by
    intro key'
    dsimp only
    rw [Function.update_apply]
    split
    · exact fun heq => hne (Option.some_inj.mp heq)
    · exact h.lists key'
  sets := h.sets

theorem Tidy.setSortedSet (h : Tidy s) (key : String) {set : Option SortedSet}
    (hset : ∀ held, set = some held → held.entries ≠ [] ∧ SortedSet.Tidy held) :
    Tidy { s with sortedSets := Function.update s.sortedSets key set } where
  lists := h.lists
  sets := by
    intro key' held hheld
    dsimp only at hheld
    rw [Function.update_apply] at hheld
    split at hheld
    · exact hset held hheld
    · exact h.sets key' held hheld

theorem Tidy.lrem (h : Tidy s) (key : String) (count : Int) (value : String) : Tidy (s.lrem key count value).2 := by
  unfold Store.lrem
  split
  · exact h
  · exact h.leaveList key _

theorem Tidy.rpop (h : Tidy s) (key : String) : Tidy (s.rpop key).2 := by
  unfold Store.rpop
  split
  · exact h
  · exact h.leaveList key _

theorem Tidy.lremoveFirstBy (h : Tidy s) (key : String) (predicate : String → Bool) :
    Tidy (s.lremoveFirstBy key predicate).2 := by
  unfold Store.lremoveFirstBy
  split
  · exact h
  · split
    · exact h
    · exact h.leaveList key _

/-- The set of a key, which is empty where there is none. -/
theorem Tidy.getD (h : Tidy s) (key : String) : SortedSet.Tidy ((s.sortedSets key).getD .empty) := by
  cases hset : s.sortedSets key with
  | none => exact SortedSet.tidy_empty
  | some set => exact (h.sets key set hset).2

theorem Tidy.zadd (h : Tidy s) (key : String) (score : Int) (member : String) : Tidy (s.zadd key score member) := by
  apply h.setSortedSet key
  intro held hheld
  cases hheld
  exact ⟨SortedSet.entries_add_ne_nil, (h.getD key).add score member⟩

theorem Tidy.zrem (h : Tidy s) (key member : String) : Tidy (s.zrem key member).2 := by
  unfold Store.zrem
  split
  · exact h
  · rename_i set hset
    apply h.setSortedSet key
    intro held hheld
    split at hheld
    · cases hheld
    · rename_i hne
      cases hheld
      exact ⟨fun hnil => hne (List.isEmpty_iff.mpr hnil), (h.sets key set hset).2.drop member⟩

/-- Every call restores what is owed of the containers. -/
theorem Tidy.call (h : Tidy s) (c : Call) : Tidy (s.call c) := by
  cases c with
  | lpush key value => exact h.setList key (List.cons_ne_nil _ _)
  | rpush key value => exact h.setList key (List.append_ne_nil_of_right_ne_nil _ (List.cons_ne_nil _ _))
  | rpop key => exact h.rpop key
  | lrem key count value => exact h.lrem key count value
  | lremoveFirstBy key predicate => exact h.lremoveFirstBy key predicate
  | zadd key score member => exact h.zadd key score member
  | zrem key member => exact h.zrem key member

/-- The member has the new score, and the others have theirs. -/
theorem hasScore_zadd {score score' : Int} {member member' : String} :
    (s.zadd key score member).HasScore key' member' score' ↔
      if key' = key ∧ member' = member then score' = score else s.HasScore key' member' score' := by
  unfold Store.HasScore Store.zadd
  dsimp only
  rw [Function.update_apply]
  by_cases hkey : key' = key
  · subst hkey
    have hold : SortedSet.Scores ((s.sortedSets key').getD .empty) member' score' ↔
        ∃ set, s.sortedSets key' = some set ∧ SortedSet.Scores set member' score' := by
      cases s.sortedSets key' with
      | none => simp [SortedSet.Scores]
      | some set => simp
    rw [if_pos rfl]
    simp only [Option.some_inj, exists_eq_left', true_and]
    rw [SortedSet.scores_add, hold]
  · rw [if_neg hkey, if_neg fun h => hkey h.1]

theorem lrem_eq (key : String) (count : Int) (value : String) :
    (s.lrem key count value).1 = (takenBy count (occurrences value 0 ((s.lists key).getD []))).length ∧
      ∀ key', ((s.lrem key count value).2.lists key').getD [] =
        if key' = key then
          without (takenBy count (occurrences value 0 ((s.lists key).getD []))) 0 ((s.lists key).getD [])
        else (s.lists key').getD [] := by
  unfold Store.lrem
  cases hlist : s.lists key with
  | none =>
    have hnone : takenBy count [] = [] := by
      unfold takenBy
      simp
    refine ⟨?_, fun key' => ?_⟩
    · show 0 = (takenBy count []).length
      rw [hnone]
      rfl
    · dsimp only
      split
      · rename_i hkey
        rw [hkey, hlist]
        rfl
      · rfl
  | some list =>
    dsimp only
    rw [removeItems_eq, Option.getD_some]
    exact ⟨rfl, fun key' => getD_leaveList _⟩

end

/-! ### Ranges -/

section
variable {s : Store} {key : String} {min max : Int} {iter : Finset String → List String}

/-- A set lists its members, each once. -/
def Lists (iter : Finset String → List String) : Prop :=
  ∀ members, (iter members).Nodup ∧ ∀ member, member ∈ iter members ↔ member ∈ members

/-- The members of the buckets, with their scores. -/
def listing (iter : Finset String → List String) (buckets : List (Int × Finset String)) : List (Int × String) :=
  buckets.flatMap fun e => (iter e.2).map (e.1, ·)

theorem mem_listing {buckets : List (Int × Finset String)} {score : Int} {member : String} (hiter : Lists iter) :
    (score, member) ∈ listing iter buckets ↔ ∃ members, (score, members) ∈ buckets ∧ member ∈ members := by
  unfold listing
  rw [List.mem_flatMap]
  constructor
  · rintro ⟨⟨score', members⟩, hbucket, hmem⟩
    obtain ⟨member', hmember, heq⟩ := List.mem_map.mp hmem
    cases heq
    exact ⟨members, hbucket, ((hiter members).2 member).mp hmember⟩
  · rintro ⟨members, hbucket, hmember⟩
    exact ⟨_, hbucket, List.mem_map_of_mem (((hiter members).2 member).mpr hmember)⟩

/-- Buckets with ascending scores list every member once, the scores ascending. -/
theorem listing_ascends {buckets : List (Int × Finset String)} (hiter : Lists iter)
    (hsorted : (buckets.map (·.1)).Pairwise (· < ·)) :
    (listing iter buckets).Nodup ∧ (listing iter buckets).Pairwise fun e e' => e.1 ≤ e'.1 := by
  have hbuckets : buckets.Pairwise fun e e' => e.1 < e'.1 := List.pairwise_map.mp hsorted
  unfold listing
  constructor
  · rw [List.nodup_flatMap]
    refine ⟨fun e _ => (hiter e.2).1.map (Prod.mk_right_injective e.1), ?_⟩
    refine hbuckets.imp fun {e e'} hlt => ?_
    intro x hx hx'
    obtain ⟨_, _, rfl⟩ := List.mem_map.mp hx
    obtain ⟨_, _, heq⟩ := List.mem_map.mp hx'
    exact absurd (congrArg Prod.fst heq) (ne_of_gt hlt)
  · rw [List.pairwise_flatMap]
    refine ⟨fun e _ => ?_, hbuckets.imp fun {e e'} hlt x hx y hy => ?_⟩
    · rw [List.pairwise_map]
      exact List.pairwise_of_forall fun _ _ => le_refl _
    · obtain ⟨_, _, rfl⟩ := List.mem_map.mp hx
      obtain ⟨_, _, rfl⟩ := List.mem_map.mp hy
      exact le_of_lt hlt

/-- A range whose bounds are not crossed gives the members with a score in it. -/
theorem zrangebyscore_eq (hiter : Lists iter) (hle : min ≤ max) :
    ∃ result, s.zrangebyscore iter key min max = some result ∧ InRange s key min max result := by
  unfold Store.zrangebyscore
  cases hset : s.sortedSets key with
  | none =>
    refine ⟨[], rfl, [], rfl, List.nodup_nil, .nil, fun score member => ?_⟩
    simp [Store.HasScore, hset]
  | some set =>
    dsimp only
    rw [if_neg (not_lt.mpr hle)]
    have hsorted : ((set.entries.filter fun e => min ≤ e.1 ∧ e.1 ≤ max).map (·.1)).Pairwise (· < ·) :=
      set.sorted.sublist (List.filter_sublist.map _)
    obtain ⟨hnodup, hascends⟩ := listing_ascends hiter hsorted
    refine ⟨_, rfl, listing iter (set.entries.filter fun e => min ≤ e.1 ∧ e.1 ≤ max), ?_, hnodup, hascends, ?_⟩
    · unfold listing
      rw [List.map_flatMap]
      simp [Function.comp_def]
    · intro score member
      rw [mem_listing hiter]
      constructor
      · rintro ⟨members, hbucket, hmember⟩
        obtain ⟨hentry, hrange⟩ := List.mem_filter.mp hbucket
        exact ⟨⟨set, hset, members, SortedMap.mem_entries_iff.mp hentry, hmember⟩, of_decide_eq_true hrange⟩
      · rintro ⟨⟨held, hheld, members, hget, hmember⟩, hrange⟩
        cases hset.symm.trans hheld
        exact ⟨members, List.mem_filter.mpr ⟨SortedMap.mem_entries_iff.mpr hget, decide_eq_true hrange⟩, hmember⟩

end

/-! ### Runs -/

theorem tidy_after (past : List Call) : Tidy (after past) := by
  induction past with
  | nil => exact ⟨nofun, nofun⟩
  | cons c past ih => exact ih.call c

/-- After every sequence of calls the containers are as they have to be, `zadd` moves a member, `lrem` removes what its
count says, and a range of scores is answered exactly if its bounds are not crossed or there is no set. -/
theorem containers_kept_iff {iter : Finset String → List String} (hiter : Lists iter) (past : List Call) (key : String)
    (min max : Int) :
    KeepsRight iter (after past) key min max ↔ min ≤ max ∨ (after past).sortedSets key = none := by
  constructor
  · intro h
    by_contra hcrossed
    rw [not_or, not_le] at hcrossed
    obtain ⟨set, hset⟩ := Option.ne_none_iff_exists'.mp hcrossed.2
    obtain ⟨result, hresult, -⟩ := h.ranges
    unfold Store.zrangebyscore at hresult
    rw [hset] at hresult
    dsimp only at hresult
    rw [if_pos hcrossed.1] at hresult
    cases hresult
  · intro h
    refine ⟨tidy_after past, fun key score member key' member' score' => hasScore_zadd, fun key count value =>
      lrem_eq key count value, ?_⟩
    rcases h with hle | hnone
    · exact zrangebyscore_eq hiter hle
    · refine ⟨[], ?_, [], rfl, List.nodup_nil, .nil, fun score member => ?_⟩
      · unfold Store.zrangebyscore
        rw [hnone]
      · simp [Store.HasScore, hnone]

theorem lists_toList : Lists Finset.toList := fun members => ⟨members.nodup_toList, fun _ => Finset.mem_toList⟩

theorem containers_kept_delayed : KeepsRight Finset.toList
    (after [.lrem "waiting" (-1) "a", .zadd "delayed" 7 "a", .zadd "delayed" 5 "a", .rpush "waiting" "a"])
    "delayed" 0 10 :=
  (containers_kept_iff lists_toList _ "delayed" 0 10).mpr (.inl (by decide))

/-- The range of a `BTreeMap` panics if its bounds are crossed. -/
theorem range_crossed :
    ¬ ∀ past key min max, KeepsRight Finset.toList (after past) key min max := by
  intro h
  obtain ⟨result, hresult, -⟩ := (h [.zadd "delayed" 5 "a"] "delayed" 1 0).ranges
  cases hresult

end Iii.QueueKv
