import Mathlib.Data.List.Sort
import Iii.Lib.Assoc

/-! The lists and sorted sets of `QueueKvStore` (`builtins/queue_kv.rs`).

A list lives under its key only while it has items, and a sorted set only while it
has members, so a map of lists is determined by what `items` reads in it; the
results below say what each operation leaves under every key.

A sorted set is held flat, in the order of the scores. The members of one score are
a hash set in the source: their order here stands for the order it iterates in. -/
namespace Iii.Queue
open Lib

variable {α : Type}

/-- `HashMap<String, VecDeque<_>>`: the front of a deque is the head of the list. -/
abbrev Lists (α : Type) : Type := List (String × List α)

def items (lists : Lists α) (key : String) : List α := (Assoc.get? lists key).getD []

/-- An emptied list is removed with its key. -/
def put (lists : Lists α) (key : String) (l : List α) : Lists α :=
  if l.isEmpty then Assoc.erase lists key else Assoc.insert lists key l

@[simp] theorem items_nil (key : String) : items ([] : Lists α) key = [] := rfl

theorem items_put (lists : Lists α) (key key' : String) (l : List α) :
    items (put lists key l) key' = if key = key' then l else items lists key' := by
  unfold items put
  by_cases hl : l = []
  · rw [if_pos (by simp [hl]), Assoc.get?_erase]
    by_cases h : key = key' <;> simp [h, hl]
  · rw [if_neg (by simpa using hl), Assoc.get?_insert]
    by_cases h : key = key' <;> simp [h]

/-! ### Lists -/

def lpush (key : String) (value : α) (lists : Lists α) : Lists α :=
  put lists key (value :: items lists key)

def rpush (key : String) (value : α) (lists : Lists α) : Lists α :=
  put lists key (items lists key ++ [value])

def rpop (key : String) (lists : Lists α) : Option α × Lists α :=
  ((items lists key).getLast?, put lists key (items lists key).dropLast)

/-- `retain` that drops the first `count` occurrences of `value`. -/
def dropFirst [DecidableEq α] (value : α) : Nat → List α → List α
  | 0, l => l
  | _ + 1, [] => []
  | n + 1, a :: rest => if a = value then dropFirst value n rest else a :: dropFirst value (n + 1) rest

/-- A positive count removes from the front, a negative one from the back, zero all. -/
def lrem [DecidableEq α] (key : String) (count : Int) (value : α) (lists : Lists α) : Lists α :=
  let l := items lists key
  put lists key <|
    if 0 < count then dropFirst value count.toNat l
    else if count < 0 then (dropFirst value count.natAbs l.reverse).reverse
    else l.filter (· ≠ value)

def lrange (key : String) (offset limit : Nat) (lists : Lists α) : List α :=
  ((items lists key).drop offset).take limit

/-- The removed item, and the lists without it. -/
def lremoveFirstBy (key : String) (predicate : α → Bool) (lists : Lists α) : Option α × Lists α :=
  let l := items lists key
  match l.findIdx? predicate with
  | some pos => (l[pos]?, put lists key (l.eraseIdx pos))
  | none => (none, lists)

theorem items_lpush (lists : Lists α) (key key' : String) (value : α) :
    items (lpush key value lists) key' =
      if key = key' then value :: items lists key' else items lists key' := by
  rw [lpush, items_put]
  by_cases h : key = key' <;> simp [h]

theorem items_rpush (lists : Lists α) (key key' : String) (value : α) :
    items (rpush key value lists) key' =
      if key = key' then items lists key' ++ [value] else items lists key' := by
  rw [rpush, items_put]
  by_cases h : key = key' <;> simp [h]

theorem items_rpop (lists : Lists α) (key key' : String) :
    items (rpop key lists).2 key' =
      if key = key' then (items lists key').dropLast else items lists key' := by
  rw [rpop, items_put]
  by_cases h : key = key' <;> simp [h]

theorem dropFirst_one [DecidableEq α] (value : α) (l : List α) : dropFirst value 1 l = l.erase value := by
  induction l with
  | nil => rfl
  | cons a rest ih =>
    rw [dropFirst, List.erase_cons]
    by_cases h : a = value
    · simp [h, dropFirst]
    · simp [h, ih]

theorem items_lrem_one [DecidableEq α] (lists : Lists α) (key key' : String) (value : α) :
    items (lrem key 1 value lists) key' =
      if key = key' then (items lists key').erase value else items lists key' := by
  rw [lrem, items_put]
  by_cases h : key = key'
  · simp [h, dropFirst_one]
  · simp [h]

theorem lremoveFirstBy_cases (key : String) (predicate : α → Bool) (lists : Lists α) :
    lremoveFirstBy key predicate lists = (none, lists) ∨
      ∃ a item b, items lists key = a ++ item :: b ∧ predicate item ∧
        lremoveFirstBy key predicate lists = (some item, put lists key (a ++ b)) := by
  cases hidx : (items lists key).findIdx? predicate with
  | none =>
    left
    simp only [lremoveFirstBy, hidx]
  | some pos =>
    obtain ⟨hpos, hitem, -⟩ := List.findIdx?_eq_some_iff_getElem.mp hidx
    refine .inr ⟨(items lists key).take pos, (items lists key)[pos], (items lists key).drop (pos + 1), ?_,
      hitem, ?_⟩
    · rw [List.getElem_cons_drop, List.take_append_drop]
    · simp only [lremoveFirstBy, hidx, List.getElem?_eq_getElem hpos, List.eraseIdx_eq_take_drop_succ]

/-! ### Sorted sets -/

/-- `HashMap<String, BTreeMap<i64, HashSet<String>>>`. -/
abbrev SortedSets : Type := Lists (Int × String)

/-- The member leaves every other score first. -/
def insertScore (score : Int) (member : String) (set : List (Int × String)) : List (Int × String) :=
  (set.filter fun e => e.2 ≠ member).orderedInsert (fun a b => a.1 ≤ b.1) (score, member)

def zadd (key : String) (score : Int) (member : String) (sets : SortedSets) : SortedSets :=
  put sets key (insertScore score member (items sets key))

/-- Whether the member was there, and the sets without it. -/
def zrem (key : String) (member : String) (sets : SortedSets) : Bool × SortedSets :=
  let set := items sets key
  (set.any fun e => e.2 = member, put sets key (set.filter fun e => e.2 ≠ member))

def zrangebyscore (key : String) (min max : Int) (sets : SortedSets) : List String :=
  ((items sets key).filter fun e => min ≤ e.1 ∧ e.1 ≤ max).map (·.2)

theorem items_zadd (sets : SortedSets) (key key' : String) (score : Int) (member : String) :
    items (zadd key score member sets) key' =
      if key = key' then insertScore score member (items sets key') else items sets key' := by
  rw [zadd, items_put]
  by_cases h : key = key' <;> simp [h]

theorem items_zrem (sets : SortedSets) (key key' : String) (member : String) :
    items (zrem key member sets).2 key' =
      if key = key' then (items sets key').filter (fun e => e.2 ≠ member) else items sets key' := by
  rw [zrem, items_put]
  by_cases h : key = key' <;> simp [h]

/-- The members of a sorted set. -/
def members (set : List (Int × String)) : List String := set.map (·.2)

theorem count_members_filter (member id : String) (set : List (Int × String)) :
    (members (set.filter fun e => e.2 ≠ member)).count id =
      if member = id then 0 else (members set).count id := by
  rw [members, members, List.count_eq_countP, List.count_eq_countP, List.countP_map, List.countP_map,
    List.countP_filter]
  by_cases h : member = id
  · rw [if_pos h]
    apply List.countP_eq_zero.mpr
    intro e _
    simp [h]
  · rw [if_neg h]
    apply List.countP_congr
    intro e _
    simp only [Function.comp_apply, Bool.and_eq_true, beq_iff_eq, decide_eq_true_eq, and_iff_left_iff_imp]
    intro he
    rw [he]
    exact Ne.symm h

theorem count_members_insertScore (score : Int) (member id : String) (set : List (Int × String)) :
    (members (insertScore score member set)).count id =
      if member = id then 1 else (members set).count id := by
  have hperm : (members (insertScore score member set)).Perm
      (member :: members (set.filter fun e => e.2 ≠ member)) :=
    (List.perm_orderedInsert _ _ _).map _
  rw [hperm.count_eq, List.count_cons, count_members_filter]
  by_cases h : member = id <;> simp [h]

end Iii.Queue
