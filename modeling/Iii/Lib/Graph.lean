import Mathlib.Algebra.BigOperators.Group.Finset.Basic

/-! Two loops over a graph that is given by what each node points to.

`reach` collects what can be reached from some nodes, and `settle` lists the nodes so that
what a node points to stands before it, or stops with those that cannot be listed. Whether
`settle` stops does not depend on the order it is given the nodes in. -/
namespace Iii.Lib
variable {κ : Type} [DecidableEq κ]

/-! ### Reaching -/

/-- The nodes still to visit are a stack; `fuel` bounds how often one is taken from it. -/
def reach (next : κ → List κ) : (fuel : Nat) → List κ → Finset κ → Finset κ
  | 0, _, seen => seen
  | _, [], seen => seen
  | n + 1, k :: visit, seen =>
    if k ∈ seen then reach next n visit seen
    else reach next n ((next k).reverse ++ visit) (insert k seen)

/-- How often a node can still be taken from the stack. -/
def pending (next : κ → List κ) (nodes : Finset κ) (visit : List κ) (seen : Finset κ) : Nat :=
  visit.length + ∑ k ∈ nodes \ seen, (next k).length

variable {next : κ → List κ} {nodes : Finset κ} {visit : List κ}

theorem pending_insert (hnodes : ∀ k ∉ nodes, next k = []) {k : κ} {visit' : List κ} {seen : Finset κ}
    (hk : k ∉ seen) (hvisit : visit'.Perm (next k ++ visit)) :
    pending next nodes visit' (insert k seen) + 1 = pending next nodes (k :: visit) seen := by
  unfold pending
  rw [hvisit.length_eq, List.length_append, List.length_cons]
  by_cases hin : k ∈ nodes
  · have hmem : k ∈ nodes \ seen := Finset.mem_sdiff.mpr ⟨hin, hk⟩
    have hsum := Finset.add_sum_erase (nodes \ seen) (fun k => (next k).length) hmem
    rw [Finset.sdiff_insert, ← hsum]
    omega
  · have hsame : nodes \ insert k seen = nodes \ seen := by
      rw [Finset.sdiff_insert, Finset.erase_eq_of_notMem]
      exact fun h => hin (Finset.mem_sdiff.mp h).1
    rw [hsame, hnodes k hin, List.length_nil]
    omega

/-- The same loop with any worklist: `push` says where the new nodes go in it. -/
def reachBy (push : List κ → List κ → List κ) (next : κ → List κ) :
    (fuel : Nat) → List κ → Finset κ → Finset κ
  | 0, _, seen => seen
  | _, [], seen => seen
  | n + 1, k :: visit, seen =>
    if k ∈ seen then reachBy push next n visit seen
    else reachBy push next n (push (next k) visit) (insert k seen)

theorem reach_eq (next : κ → List κ) (fuel : Nat) (visit : List κ) (seen : Finset κ) :
    reach next fuel visit seen = reachBy (fun new visit => new.reverse ++ visit) next fuel visit seen := by
  induction fuel generalizing visit seen with
  | zero => rfl
  | succ n ih =>
    cases visit with
    | nil => rfl
    | cons k visit => rw [reach, reachBy, ih, ih]

/-- What the loop has collected when nothing is left to visit. -/
structure Reached (next : κ → List κ) (visit : List κ) (seen result : Finset κ) : Prop where
  kept : seen ⊆ result
  visited : ∀ k ∈ visit, k ∈ result
  closed : ∀ k ∈ result, ∀ d ∈ next k, d ∈ result
  only : ∀ k ∈ result, k ∈ seen ∨ ∃ a ∈ visit, Relation.ReflTransGen (fun a b => b ∈ next a) a k

theorem reachBy_reached {push : List κ → List κ → List κ}
    (hpush : ∀ new visit, (push new visit).Perm (new ++ visit)) (hnodes : ∀ k ∉ nodes, next k = []) {fuel : Nat}
    {seen : Finset κ} (hfuel : pending next nodes visit seen ≤ fuel)
    (hseen : ∀ k ∈ seen, ∀ d ∈ next k, d ∈ seen ∨ d ∈ visit) :
    Reached next visit seen (reachBy push next fuel visit seen) := by
  induction fuel generalizing visit seen with
  | zero =>
    have hempty : visit = [] := List.eq_nil_of_length_eq_zero (by unfold pending at hfuel; omega)
    subst hempty
    exact ⟨subset_rfl, (fun _ h => nomatch h), fun k hk d hd => (hseen k hk d hd).resolve_right (fun h => nomatch h),
      fun _ => .inl⟩
  | succ n ih =>
    cases visit with
    | nil =>
      exact ⟨subset_rfl, (fun _ h => nomatch h), fun k hk d hd => (hseen k hk d hd).resolve_right (fun h => nomatch h),
        fun _ => .inl⟩
    | cons k visit =>
      rw [reachBy]
      by_cases hk : k ∈ seen
      · rw [if_pos hk]
        have hless : pending next nodes visit seen ≤ n := by
          unfold pending at hfuel ⊢
          rw [List.length_cons] at hfuel
          omega
        have hrest : ∀ k' ∈ seen, ∀ d ∈ next k', d ∈ seen ∨ d ∈ visit := by
          intro k' hk' d hd
          rcases hseen k' hk' d hd with hd | hd
          · exact .inl hd
          · rcases List.mem_cons.mp hd with rfl | hd
            · exact .inl hk
            · exact .inr hd
        have hr := ih hless hrest
        refine ⟨hr.kept, ?_, hr.closed, ?_⟩
        · intro x hx
          rcases List.mem_cons.mp hx with rfl | hx
          · exact hr.kept hk
          · exact hr.visited x hx
        · intro x hx
          exact (hr.only x hx).imp_right fun ⟨a, ha, hpath⟩ => ⟨a, List.mem_cons_of_mem _ ha, hpath⟩
      · rw [if_neg hk]
        have hless : pending next nodes (push (next k) visit) (insert k seen) ≤ n := by
          have hpending : _ = pending next nodes (k :: visit) seen := pending_insert hnodes hk (hpush _ _)
          omega
        have hrest : ∀ k' ∈ insert k seen, ∀ d ∈ next k', d ∈ insert k seen ∨ d ∈ push (next k) visit := by
          intro k' hk' d hd
          rcases Finset.mem_insert.mp hk' with rfl | hk'
          · exact .inr ((hpush _ _).mem_iff.mpr (List.mem_append_left _ hd))
          · rcases hseen k' hk' d hd with hd | hd
            · exact .inl (Finset.mem_insert_of_mem hd)
            · rcases List.mem_cons.mp hd with rfl | hd
              · exact .inl (Finset.mem_insert_self _ _)
              · exact .inr ((hpush _ _).mem_iff.mpr (List.mem_append_right _ hd))
        have hr := ih hless hrest
        refine ⟨(Finset.subset_insert _ _).trans hr.kept, ?_, hr.closed, ?_⟩
        · intro x hx
          rcases List.mem_cons.mp hx with rfl | hx
          · exact hr.kept (Finset.mem_insert_self _ _)
          · exact hr.visited x ((hpush _ _).mem_iff.mpr (List.mem_append_right _ hx))
        · intro x hx
          rcases hr.only x hx with hx | ⟨a, ha, hpath⟩
          · rcases Finset.mem_insert.mp hx with rfl | hx
            · exact .inr ⟨x, List.mem_cons_self, .refl⟩
            · exact .inl hx
          · rcases List.mem_append.mp ((hpush _ _).mem_iff.mp ha) with ha | ha
            · exact .inr ⟨k, List.mem_cons_self, .head ha hpath⟩
            · exact .inr ⟨a, List.mem_cons_of_mem _ ha, hpath⟩

/-- The loop collects exactly what can be reached. -/
theorem mem_reachBy {push : List κ → List κ → List κ}
    (hpush : ∀ new visit, (push new visit).Perm (new ++ visit)) (hnodes : ∀ k ∉ nodes, next k = []) {fuel : Nat}
    (hfuel : pending next nodes visit ∅ ≤ fuel) {k : κ} :
    k ∈ reachBy push next fuel visit ∅ ↔ ∃ a ∈ visit, Relation.ReflTransGen (fun a b => b ∈ next a) a k := by
  have hr := reachBy_reached hpush hnodes hfuel fun _ h => absurd h (Finset.notMem_empty _)
  constructor
  · intro hk
    exact (hr.only k hk).resolve_left (Finset.notMem_empty _)
  · intro ⟨a, ha, hpath⟩
    induction hpath with
    | refl => exact hr.visited a ha
    | tail _ hstep ih => exact hr.closed _ ih _ hstep

theorem mem_reach (hnodes : ∀ k ∉ nodes, next k = []) {fuel : Nat} (hfuel : pending next nodes visit ∅ ≤ fuel)
    {k : κ} :
    k ∈ reach next fuel visit ∅ ↔ ∃ a ∈ visit, Relation.ReflTransGen (fun a b => b ∈ next a) a k := by
  rw [reach_eq]
  exact mem_reachBy (fun new visit => (List.reverse_perm new).append_right visit) hnodes hfuel

/-! ### Listing dependencies first -/

/-- No node points to itself or to one that stands behind it. -/
def DependencyFirst (deps : κ → List κ) (l : List κ) : Prop :=
  (∀ k ∈ l, k ∉ deps k) ∧ l.Pairwise fun a b => b ∉ deps a

omit [DecidableEq κ] in
variable {l : List κ}

theorem DependencyFirst.before {deps : κ → List κ} {front back : List κ} {k d : κ} (h : DependencyFirst deps l)
    (hl : l = front ++ k :: back) (hd : d ∈ deps k) (hmem : d ∈ l) : d ∈ front := by
  obtain ⟨hself, hpair⟩ := h
  subst hl
  rcases List.mem_append.mp hmem with hfront | hback
  · exact hfront
  · rcases List.mem_cons.mp hback with rfl | hback
    · exact absurd hd (hself d hmem)
    · have hlate := (List.pairwise_cons.mp (List.pairwise_append.mp hpair).2.1).1 d hback
      exact absurd hd hlate

/-- A node is taken as soon as nothing it points to remains; `fuel` is the number of nodes. -/
def settle (deps : κ → List κ) : (fuel : Nat) → List κ → Except (List κ) (List κ)
  | 0, _ => .ok []
  | n + 1, order =>
    match order.find? fun k => (deps k).all fun d => d ∉ order with
    | none => .error order
    | some k => (settle deps n (order.erase k)).map (k :: ·)

variable {deps : κ → List κ}

variable {order : List κ}

theorem settle_succ_eq_ok {n : Nat} (h : settle deps (n + 1) order = .ok l) :
    ∃ k l', k ∈ order ∧ (∀ d ∈ deps k, d ∉ order) ∧ settle deps n (order.erase k) = .ok l' ∧ l = k :: l' := by
  rw [settle] at h
  split at h
  · cases h
  · rename_i k hfind
    have hall : ((deps k).all fun d => d ∉ order) = true :=
      List.find?_some (p := fun k => (deps k).all fun d => d ∉ order) hfind
    have hready : ∀ d ∈ deps k, d ∉ order := fun d hd => of_decide_eq_true (List.all_eq_true.mp hall d hd)
    cases hrest : settle deps n (order.erase k) with
    | error e =>
      rw [hrest] at h
      cases h
    | ok l' =>
      rw [hrest] at h
      exact ⟨k, l', List.mem_of_find?_eq_some hfind, hready, hrest, (Except.ok.inj h).symm⟩

theorem settle_spec (h : settle deps order.length order = .ok l) :
    l.Perm order ∧ DependencyFirst deps l := by
  generalize hn : order.length = n at h
  induction n generalizing order l with
  | zero =>
    cases h
    rw [List.eq_nil_of_length_eq_zero hn]
    exact ⟨.refl _, (fun _ hk => nomatch hk), .nil⟩
  | succ n ih =>
    obtain ⟨k, l', hk, hready, hrest, rfl⟩ := settle_succ_eq_ok h
    have hlen : (order.erase k).length = n := by
      rw [List.length_erase_of_mem hk, hn, Nat.add_sub_cancel]
    obtain ⟨hperm, hself, hpair⟩ := ih hlen hrest
    have hsub : ∀ d ∈ l', d ∈ order := fun d hd => List.mem_of_mem_erase (hperm.mem_iff.mp hd)
    refine ⟨(hperm.cons k).trans (List.perm_cons_erase hk).symm, ?_, ?_⟩
    · intro x hx
      rcases List.mem_cons.mp hx with rfl | hx
      · exact fun hd => hready x hd hk
      · exact hself x hx
    · exact List.pairwise_cons.mpr ⟨fun d hd hdep => hready d hdep (hsub d hd), hpair⟩

/-- As long as the nodes can be listed at all, one of them is ready. -/
theorem exists_settle (hperm : l.Perm order) (hl : DependencyFirst deps l) :
    ∃ l', settle deps order.length order = .ok l' := by
  generalize hn : order.length = n
  induction n generalizing order l with
  | zero => exact ⟨[], rfl⟩
  | succ n ih =>
    rw [settle]
    split
    · rename_i hnone
      cases l with
      | nil =>
        rw [← hperm.nil_eq] at hn
        cases hn
      | cons first rest =>
        refine absurd ?_ (List.find?_eq_none.mp hnone first (hperm.mem_iff.mp List.mem_cons_self))
        refine List.all_eq_true.mpr fun d hd => decide_eq_true fun hmem => ?_
        have hbefore : d ∈ ([] : List κ) := hl.before rfl hd (hperm.mem_iff.mpr hmem)
        cases hbefore
    · rename_i k hfind
      have hk := List.mem_of_find?_eq_some hfind
      have hlen : (order.erase k).length = n := by
        rw [List.length_erase_of_mem hk, hn, Nat.add_sub_cancel]
      have hrest : DependencyFirst deps (l.erase k) :=
        ⟨fun x hx => hl.1 x (List.mem_of_mem_erase hx), hl.2.sublist List.erase_sublist⟩
      obtain ⟨l', hl'⟩ := ih (hperm.erase k) hrest hlen
      exact ⟨k :: l', by rw [hl']; rfl⟩

theorem settle_perm {order' : List κ} (h : settle deps order.length order = .ok l) (hperm : order.Perm order') :
    ∃ l', settle deps order'.length order' = .ok l' :=
  have ⟨hl, hfirst⟩ := settle_spec h
  exists_settle (hl.trans hperm) hfirst

end Iii.Lib
