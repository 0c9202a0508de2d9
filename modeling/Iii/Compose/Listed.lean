import Mathlib.Data.List.Find
import Iii.Compose.Merge

/-! What is written of the merged containers.

The containers that the request reaches are listed with dependencies first. Which they are is
a property of the merged containers alone, and whether they can be listed at all one of their
edges, so neither depends on the order in which the containers were first met. -/
namespace Iii.Compose
open Lib

section Listed
variable {F : Type} {containers : SortedMap String (NewContainer F)} {asked asked' : List (NewContainer F)}

/-! ### What is reached -/

theorem edgesOf_eq_nil {key : String} (h : key ∉ containers.keys.toFinset) : edgesOf containers key = [] := by
  rw [List.mem_toFinset, SortedMap.mem_keys_iff, Option.not_isSome_iff_eq_none] at h
  rw [edgesOf, h]
  rfl

theorem mem_reachableFrom {key : String} : key ∈ reachableFrom containers asked ↔
    ∃ worker ∈ asked, Relation.ReflTransGen (fun a b => b ∈ edgesOf containers a) worker.key key := by
  have hsum : ∑ k ∈ containers.keys.toFinset, (edgesOf containers k).length =
      (containers.entries.map (·.2.startAfter.length)).sum := by
    rw [List.sum_toFinset _ (l := containers.keys) containers.distinct, SortedMap.keys, List.map_map]
    congr 1
    apply List.map_congr_left
    intro e he
    have hget : containers.get? e.1 = some e.2 := SortedMap.mem_entries_iff.mp he
    rw [Function.comp_apply, edgesOf, hget]
    rfl
  have hfuel : pending (edgesOf containers) containers.keys.toFinset (asked.map (·.key)).reverse ∅ ≤
      asked.length + (containers.entries.map (·.2.startAfter.length)).sum := by
    rw [pending, Finset.sdiff_empty, hsum, List.length_reverse, List.length_map]
  rw [reachableFrom, mem_reach (fun _ => edgesOf_eq_nil) hfuel]
  constructor
  · rintro ⟨a, ha, hpath⟩
    obtain ⟨worker, hworker, rfl⟩ := List.mem_map.mp (List.mem_reverse.mp ha)
    exact ⟨worker, hworker, hpath⟩
  · rintro ⟨worker, hworker, hpath⟩
    exact ⟨worker.key, List.mem_reverse.mpr (List.mem_map_of_mem hworker), hpath⟩

theorem reachableFrom_perm (hperm : asked.Perm asked') :
    reachableFrom containers asked = reachableFrom containers asked' := by
  ext key
  rw [mem_reachableFrom, mem_reachableFrom]
  exact exists_congr fun worker => and_congr_left fun _ => hperm.mem_iff

/-! ### The list -/

/-- The loop that takes containers away lists their keys. -/
theorem sortContainers_eq {get : String → Option (NewContainer F)} {n : Nat} {order : List String}
    (hlen : order.length = n) (hdistinct : order.Nodup) (hget : ∀ key ∈ order, containers.get? key = get key)
    (hkeys : ∀ key, key ∈ order ↔ (containers.get? key).isSome) :
    sortContainers n order containers =
      ((settle (fun key => ((get key).map (·.startAfter)).getD []) n order).mapError
        fun rest => .dependencyCycle (" -> ".intercalate rest)).map (·.filterMap get) := by
  induction n generalizing order containers with
  | zero => rfl
  | succ n ih =>
    have hready : order.find? (fun key => (edgesOf containers key).all fun dep => (containers.get? dep).isNone) =
        order.find? fun key => (((get key).map (·.startAfter)).getD []).all fun dep => dep ∉ order := by
      apply List.find?_congr
      intro key hkey
      rw [edgesOf, hget key hkey]
      apply all_congr_mem
      intro dep _
      rw [Bool.eq_iff_iff, Option.isNone_iff_eq_none, decide_eq_true_iff, hkeys, Option.not_isSome_iff_eq_none]
    rw [sortContainers, settle, hready]
    cases hfind : order.find? fun key => (((get key).map (·.startAfter)).getD []).all fun dep => dep ∉ order with
    | none => rfl
    | some key =>
      have hkey := List.mem_of_find?_eq_some hfind
      have hlen' : (order.erase key).length = n := by
        rw [List.length_erase_of_mem hkey, hlen, Nat.add_sub_cancel]
      have hget' : ∀ k ∈ order.erase key, (containers.erase key).get? k = get k := by
        intro k hk
        obtain ⟨hne, hk⟩ := (hdistinct.mem_erase_iff).mp hk
        rw [SortedMap.get?_erase, if_neg (Ne.symm hne), hget k hk]
      have hkeys' : ∀ k, k ∈ order.erase key ↔ ((containers.erase key).get? k).isSome := by
        intro k
        rw [hdistinct.mem_erase_iff, SortedMap.get?_erase, hkeys]
        by_cases heq : key = k
        · simp [heq]
        · simp [heq, Ne.symm heq]
      dsimp only
      rw [ih hlen' (hdistinct.erase key) hget' hkeys']
      obtain ⟨w, hw⟩ := Option.isSome_iff_exists.mp ((hkeys key).mp hkey)
      have hwget : get key = some w := (hget key hkey).symm.trans hw
      cases settle (fun key => ((get key).map (·.startAfter)).getD []) n (order.erase key) with
      | error rest => rfl
      | ok l =>
        rw [hw]
        show Except.ok (w :: l.filterMap get) = .ok ((key :: l).filterMap get)
        rw [List.filterMap_cons, hwget]

/-- What a finished loop leaves: the keys in `order` are those of the containers, each of which
knows its own. -/
structure Building.Listed (b : Building F) : Prop where
  distinct : b.order.Nodup
  order : ∀ key, key ∈ b.order ↔ (b.containers.get? key).isSome
  key : ∀ key w, b.containers.get? key = some w → w.key = key

theorem Built.listed [DecidableEq F] {shares : List (Share F)} {b : Building F} (h : Built shares b) : b.Listed where
  distinct := h.distinct
  order key := by rw [h.order, h.containers, Option.isSome_map]
  key key w hw := by
    rw [h.containers] at hw
    obtain ⟨first, hfirst, rfl⟩ := Option.map_eq_some_iff.mp hw
    obtain ⟨s, -, hdeclares⟩ := List.exists_of_findSome?_eq_some hfirst
    exact (Part.declares_key hdeclares).1

/-- The plan of a list of keys. -/
def Building.planOf (b : Building F) (asked : List (NewContainer F)) (l : List String) : Plan F where
  containers := l.filterMap b.containers.get?
  aliases := b.aliases.filter (·.container ∈ reachableFrom b.containers asked)
  selectedVersions := b.selectedVersions.filter fun key _ => key ∈ reachableFrom b.containers asked

def Building.reached (b : Building F) (asked : List (NewContainer F)) : List String :=
  b.order.filter (· ∈ reachableFrom b.containers asked)

theorem finish_eq_ok {b : Building F} (h : b.Listed) {plan : Plan F} : b.finish asked = .ok plan ↔
    ∃ l, settle (edgesOf b.containers) (b.reached asked).length (b.reached asked) = .ok l ∧ b.planOf asked l = plan := by
  have hget : ∀ key ∈ b.reached asked, (b.containers.filter fun key _ => key ∈ reachableFrom b.containers asked).get? key =
      b.containers.get? key := by
    intro key hkey
    have hreach := (List.mem_filter.mp hkey).2
    rw [SortedMap.get?_filter]
    cases b.containers.get? key with
    | none => rfl
    | some w => exact if_pos hreach
  have hkeys : ∀ key, key ∈ b.reached asked ↔
      ((b.containers.filter fun key _ => key ∈ reachableFrom b.containers asked).get? key).isSome := by
    intro key
    rw [Building.reached, List.mem_filter, h.order, SortedMap.get?_filter]
    cases b.containers.get? key with
    | none => simp
    | some w => simp [Option.filter_some]
  have hdistinct : (b.reached asked).Nodup := h.distinct.filter _
  have hsort := sortContainers_eq rfl hdistinct hget hkeys
  unfold Building.finish
  dsimp only
  rw [show (b.order.filter fun key => key ∈ reachableFrom b.containers asked) = b.reached asked from rfl, hsort,
    show (fun key => ((b.containers.get? key).map (·.startAfter)).getD []) = edgesOf b.containers from rfl]
  cases settle (edgesOf b.containers) (b.reached asked).length (b.reached asked) with
  | error rest => exact ⟨(fun h => nomatch h), fun ⟨_, h, _⟩ => nomatch h⟩
  | ok l =>
    constructor
    · intro hplan
      exact ⟨l, rfl, Except.ok.inj hplan⟩
    · intro ⟨l', hl, hplan⟩
      cases hl
      exact congrArg Except.ok hplan

/-- Two plans write the same. -/
structure Plan.Same (p q : Plan F) : Prop where
  containers : p.containers.Perm q.containers
  aliases : p.aliases.Perm q.aliases
  selectedVersions : p.selectedVersions = q.selectedVersions

theorem finish_perm {b b' : Building F} (h : b.Listed) (h' : b'.Listed) (hsame : b.Same b') (hperm : asked.Perm asked')
    {plan : Plan F} (hfinish : b.finish asked = .ok plan) : ∃ plan', b'.finish asked' = .ok plan' ∧ plan.Same plan' := by
  obtain ⟨l, hl, rfl⟩ := (finish_eq_ok h).mp hfinish
  have hreach : reachableFrom b.containers asked = reachableFrom b'.containers asked' := by
    rw [hsame.containers, reachableFrom_perm hperm]
  have hreached : (b.reached asked).Perm (b'.reached asked') := by
    unfold Building.reached
    rw [hreach]
    exact hsame.order.filter _
  obtain ⟨l', hl'⟩ := settle_perm hl hreached
  have hlist : l.Perm l' := (settle_spec hl).1.trans (hreached.trans (settle_spec hl').1.symm)
  rw [hsame.containers] at hl'
  refine ⟨b'.planOf asked' l', (finish_eq_ok h').mpr ⟨l', hl', rfl⟩, ?_, ?_, ?_⟩
  · show (l.filterMap b.containers.get?).Perm (l'.filterMap b'.containers.get?)
    rw [hsame.containers]
    exact hlist.filterMap _
  · show (b.aliases.filter _).Perm (b'.aliases.filter _)
    rw [hreach]
    exact hsame.aliases.filter _
  · unfold Building.planOf
    rw [hsame.versions, hreach]

/-! ### What is listed -/

section Listing
variable {b : Building F} (hb : b.Listed) {l : List String}
  (hl : settle (edgesOf b.containers) (b.reached asked).length (b.reached asked) = .ok l)
include hb hl

theorem mem_planOf {w : NewContainer F} : w ∈ (b.planOf asked l).containers ↔
    w.key ∈ l ∧ b.containers.get? w.key = some w := by
  show w ∈ l.filterMap b.containers.get? ↔ _
  rw [List.mem_filterMap]
  constructor
  · intro ⟨key, hkey, hget⟩
    have heq := hb.key key w hget
    subst heq
    exact ⟨hkey, hget⟩
  · intro ⟨hkey, hget⟩
    exact ⟨w.key, hkey, hget⟩

theorem mem_listed {key : String} : key ∈ l ↔
    (b.containers.get? key).isSome ∧ key ∈ reachableFrom b.containers asked := by
  rw [(settle_spec hl).1.mem_iff, Building.reached, List.mem_filter, hb.order, decide_eq_true_iff]

theorem planOf_keys : (b.planOf asked l).containers.map (·.key) = l := by
  have hall : ∀ key ∈ l, ∃ w, b.containers.get? key = some w ∧ w.key = key := by
    intro key hkey
    obtain ⟨w, hw⟩ := Option.isSome_iff_exists.mp ((mem_listed hb hl).mp hkey).1
    exact ⟨w, hw, hb.key key w hw⟩
  show (l.filterMap b.containers.get?).map (·.key) = l
  clear hl
  induction l with
  | nil => rfl
  | cons key rest ih =>
    rw [List.forall_mem_cons] at hall
    obtain ⟨⟨w, hw, hkey⟩, hrest⟩ := hall
    rw [List.filterMap_cons, hw, List.map_cons, hkey, ih hrest]

theorem planOf_once : ((b.planOf asked l).containers.map (·.key)).Nodup := by
  rw [planOf_keys hb hl, (settle_spec hl).1.nodup_iff]
  exact hb.distinct.filter _

theorem planOf_ordered {before after : List (NewContainer F)} {w : NewContainer F}
    (hsplit : (b.planOf asked l).containers = before ++ w :: after) {dep : String} (hdep : dep ∈ w.startAfter)
    (hmem : dep ∈ (b.planOf asked l).containers.map (·.key)) : dep ∈ before.map (·.key) := by
  have hkeys := planOf_keys hb hl
  rw [hkeys] at hmem
  rw [hsplit, List.map_append, List.map_cons] at hkeys
  apply (settle_spec hl).2.before hkeys.symm _ hmem
  have hw : w ∈ (b.planOf asked l).containers := hsplit ▸ List.mem_append_right _ List.mem_cons_self
  rw [edgesOf, ((mem_planOf hb hl).mp hw).2]
  exact hdep

theorem planOf_reached {w : NewContainer F} (hw : w ∈ (b.planOf asked l).containers) : ∃ worker ∈ asked,
    Relation.ReflTransGen (fun a c => ∃ v ∈ (b.planOf asked l).containers, v.key = a ∧ c ∈ v.startAfter)
      worker.key w.key := by
  have hkey := ((mem_listed hb hl).mp ((mem_planOf hb hl).mp hw).1).2
  obtain ⟨worker, hworker, hpath⟩ := mem_reachableFrom.mp hkey
  refine ⟨worker, hworker, ?_⟩
  generalize w.key = key at hpath
  induction hpath with
  | refl => exact .refl
  | @tail a c hpath hstep ih =>
    refine ih.tail ?_
    cases hget : b.containers.get? a with
    | none =>
      rw [edgesOf, hget] at hstep
      cases hstep
    | some v =>
      have hva := hb.key a v hget
      subst hva
      rw [edgesOf, hget] at hstep
      have hreach := mem_reachableFrom.mpr ⟨worker, hworker, hpath⟩
      exact ⟨v, (mem_planOf hb hl).mpr ⟨(mem_listed hb hl).mpr ⟨hget ▸ rfl, hreach⟩, hget⟩, rfl, hstep⟩

end Listing

end Listed

end Iii.Compose
