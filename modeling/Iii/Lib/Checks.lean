import Mathlib.Data.List.Perm.Basic

/-! Loops that stop at the first error.

A sequence of checks passes when each of them does, and a list of fallible computations
succeeds when each of them does, with their results in order. -/
namespace Iii.Lib
variable {α β ε : Type}

variable {f : α → Except ε β}

theorem bind_eq_ok {x : Except ε α} {b : β} :
    (x >>= f) = .ok b ↔ ∃ a, x = .ok a ∧ f a = .ok b := by
  cases x with
  | error e => exact ⟨(fun h => nomatch h), fun ⟨_, h, _⟩ => nomatch h⟩
  | ok a => exact ⟨fun h => ⟨a, rfl, h⟩, fun ⟨_, h, hb⟩ => by cases h; exact hb⟩

/-- A check, with the error it stops with. -/
def ensure (c : Prop) [Decidable c] (e : ε) : Except ε Unit := if c then .ok () else .error e

theorem ensure_eq_ok {c : Prop} [Decidable c] {e : ε} : ensure c e = .ok () ↔ c := by
  unfold ensure
  by_cases h : c
  · rw [if_pos h]
    exact ⟨fun _ => h, fun _ => rfl⟩
  · rw [if_neg h]
    exact ⟨(fun h' => nomatch h'), fun h' => absurd h' h⟩

theorem ensure_bind_eq_ok {c : Prop} [Decidable c] {e : ε} {f : Unit → Except ε β} {b : β} :
    (ensure c e >>= f) = .ok b ↔ c ∧ f () = .ok b := by
  rw [bind_eq_ok]
  constructor
  · intro ⟨⟨⟩, hc, hb⟩
    exact ⟨ensure_eq_ok.mp hc, hb⟩
  · intro ⟨hc, hb⟩
    exact ⟨(), ensure_eq_ok.mpr hc, hb⟩

variable {l : List α}

theorem forM_eq_ok {f : α → Except ε Unit} :
    forM l f = .ok () ↔ ∀ a ∈ l, f a = .ok () := by
  induction l with
  | nil => exact ⟨(fun _ _ h => nomatch h), fun _ => rfl⟩
  | cons a rest ih =>
    rw [List.forM_cons, bind_eq_ok, List.forall_mem_cons]
    constructor
    · intro ⟨u, ha, hrest⟩
      exact ⟨ha, ih.mp hrest⟩
    · intro ⟨ha, hrest⟩
      exact ⟨(), ha, ih.mpr hrest⟩

/-- The first error is that of a check. -/
theorem forM_eq_error {f : α → Except ε Unit} {e : ε} (h : forM l f = .error e) :
    ∃ a ∈ l, f a = .error e := by
  induction l with
  | nil => cases h
  | cons a rest ih =>
    rw [List.forM_cons] at h
    cases ha : f a with
    | error e' =>
      rw [ha] at h
      cases h
      exact ⟨a, List.mem_cons_self, ha⟩
    | ok u =>
      rw [ha] at h
      obtain ⟨a', ha', hfault⟩ := ih h
      exact ⟨a', List.mem_cons_of_mem _ ha', hfault⟩

theorem forM_bind_eq_ok {f : α → Except ε Unit} {g : Unit → Except ε β} {b : β} :
    (forM l f >>= g) = .ok b ↔ (∀ a ∈ l, f a = .ok ()) ∧ g () = .ok b := by
  rw [bind_eq_ok, ← forM_eq_ok]
  exact ⟨fun ⟨⟨⟩, hl, hb⟩ => ⟨hl, hb⟩, fun ⟨hl, hb⟩ => ⟨(), hl, hb⟩⟩

theorem mapM_eq_ok {r : List β} :
    l.mapM f = .ok r ↔ l.map f = r.map .ok := by
  induction l generalizing r with
  | nil =>
    rw [List.mapM_nil, List.map_nil, eq_comm (a := []), List.map_eq_nil_iff]
    exact ⟨fun h => (Except.ok.inj h).symm, fun h => congrArg Except.ok h.symm⟩
  | cons a rest ih =>
    rw [List.mapM_cons, bind_eq_ok]
    constructor
    · intro ⟨b, ha, hrest⟩
      obtain ⟨r', hr', hr⟩ := bind_eq_ok.mp hrest
      rw [← Except.ok.inj hr, List.map_cons, List.map_cons, ha, ih.mp hr']
    · intro h
      cases r with
      | nil => cases h
      | cons b r' =>
        obtain ⟨ha, hrest⟩ := List.cons.inj h
        exact ⟨b, ha, bind_eq_ok.mpr ⟨r', ih.mpr hrest, rfl⟩⟩

/-- The first error is that of an item. -/
theorem mapM_eq_error {e : ε} (h : l.mapM f = .error e) :
    ∃ a ∈ l, f a = .error e := by
  induction l with
  | nil => cases h
  | cons a rest ih =>
    rw [List.mapM_cons] at h
    cases ha : f a with
    | error e' =>
      rw [ha] at h
      cases h
      exact ⟨a, List.mem_cons_self, ha⟩
    | ok b =>
      rw [ha] at h
      cases hrest : rest.mapM f with
      | error e' =>
        have heq : (Except.error e' : Except ε (List β)) = .error e := by
          rw [← h, ← hrest]
          show _ = (rest.mapM f >>= fun r => Except.ok (b :: r))
          rw [hrest]
          rfl
        cases heq
        obtain ⟨a', ha', hfault⟩ := ih hrest
        exact ⟨a', List.mem_cons_of_mem _ ha', hfault⟩
      | ok r =>
        have hok : (Except.ok (b :: r) : Except ε (List β)) = .error e := by
          rw [← h]
          show _ = (rest.mapM f >>= fun r => Except.ok (b :: r))
          rw [hrest]
          rfl
        cases hok

theorem exists_mapM (h : ∀ a ∈ l, ∃ b, f a = .ok b) : ∃ r, l.mapM f = .ok r := by
  induction l with
  | nil => exact ⟨[], rfl⟩
  | cons a rest ih =>
    rw [List.forall_mem_cons] at h
    obtain ⟨b, hb⟩ := h.1
    obtain ⟨r, hr⟩ := ih h.2
    refine ⟨b :: r, ?_⟩
    rw [List.mapM_cons, hb, hr]
    rfl

section MapM
variable {f : α → Except ε β} {l : List α} {r : List β} (h : l.mapM f = .ok r)
include h

theorem mapM_mem {a : α} (ha : a ∈ l) : ∃ b ∈ r, f a = .ok b := by
  have hmem := List.mem_map_of_mem (f := f) ha
  rw [mapM_eq_ok.mp h] at hmem
  obtain ⟨b, hb, heq⟩ := List.mem_map.mp hmem
  exact ⟨b, hb, heq.symm⟩

theorem mapM_mem_right {b : β} (hb : b ∈ r) : ∃ a ∈ l, f a = .ok b := by
  have hmem := List.mem_map_of_mem (f := @Except.ok ε β) hb
  rw [← mapM_eq_ok.mp h] at hmem
  exact List.mem_map.mp hmem

/-- The results stand at the places of their arguments. -/
theorem mapM_getElem? (i : Nat) : (r[i]?).map .ok = (l[i]?).map f := by
  have heq := congrArg (·[i]?) (mapM_eq_ok.mp h)
  simp only [List.getElem?_map] at heq
  exact heq.symm

/-- What each result takes over from its argument, the list of results takes over. -/
theorem mapM_map_eq {γ : Type} {g : β → γ} {g' : α → γ} (hg : ∀ a b, f a = .ok b → g b = g' a) :
    r.map g = l.map g' := by
  have heq := mapM_eq_ok.mp h
  clear h
  induction l generalizing r with
  | nil => rw [List.map_eq_nil_iff.mp heq.symm]; rfl
  | cons a rest ih =>
    cases r with
    | nil => cases heq
    | cons b r' =>
      obtain ⟨ha, hrest⟩ := List.cons.inj heq
      rw [List.map_cons, List.map_cons, hg a b ha, ih hrest]

/-- Permuted arguments give permuted results. -/
theorem mapM_perm {l' : List α} (hperm : l.Perm l') : ∃ r', l'.mapM f = .ok r' ∧ r.Perm r' := by
  obtain ⟨r', hr'⟩ := exists_mapM fun a ha => (mapM_mem h (hperm.mem_iff.mpr ha)).imp fun _ hb => hb.2
  refine ⟨r', hr', ?_⟩
  have hmap : (r.map (@Except.ok ε β)).Perm (r'.map .ok) := by
    rw [← mapM_eq_ok.mp h, ← mapM_eq_ok.mp hr']
    exact hperm.map f
  exact (List.map_perm_map_iff fun _ _ heq => Except.ok.inj heq).mp hmap

end MapM

/-- A loop whose step first computes something of the item alone. -/
theorem foldlM_eq_ok_iff_mapM {σ : Type} {step : σ → α → Except ε σ} {g : σ → β → Except ε σ}
    (h : ∀ s a s', step s a = .ok s' ↔ ∃ b, f a = .ok b ∧ g s b = .ok s') {s s' : σ} :
    l.foldlM step s = .ok s' ↔ ∃ r, l.mapM f = .ok r ∧ r.foldlM g s = .ok s' := by
  induction l generalizing s with
  | nil =>
    constructor
    · exact fun hs => ⟨[], rfl, hs⟩
    · intro ⟨r, hr, hs⟩
      cases hr
      exact hs
  | cons a rest ih =>
    rw [List.foldlM_cons, bind_eq_ok]
    constructor
    · intro ⟨t, hstep, hrest⟩
      obtain ⟨b, hb, hg⟩ := (h s a t).mp hstep
      obtain ⟨r, hr, hrun⟩ := ih.mp hrest
      refine ⟨b :: r, ?_, bind_eq_ok.mpr ⟨t, hg, hrun⟩⟩
      rw [List.mapM_cons, hb, hr]
      rfl
    · intro ⟨r, hr, hrun⟩
      rw [List.mapM_cons] at hr
      obtain ⟨b, hb, hr⟩ := bind_eq_ok.mp hr
      obtain ⟨r', hr', heq⟩ := bind_eq_ok.mp hr
      cases heq
      obtain ⟨t, hg, hrest⟩ := bind_eq_ok.mp hrun
      exact ⟨t, (h s a t).mpr ⟨b, hb, hg⟩, ih.mpr ⟨r', hr', hrest⟩⟩

end Iii.Lib
