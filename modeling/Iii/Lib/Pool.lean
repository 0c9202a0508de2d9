import Iii.Lib.System
import Mathlib.Algebra.BigOperators.Group.Multiset.Basic

/-! Tasks over a shared state.

A task runs one action at a time on the state that all tasks share, and each action says
what state it leaves and which tasks follow: the task itself, further on, and those it
spawns. Any task may be next, and new tasks may be started at any time.

Four rules prove what holds in every reachable configuration. `Kept` is for an invariant of
the state with an assertion for each task, which the actions of the others have to leave
true. `Covered` is for what holds unless some task is still to see to it, and `Owed` for the
same in the runs whose steps meet a condition on the other tasks. `Balanced` is for
what the state counts while some of it is still in the hands of the tasks. A schedule that is
written down can be played: `play` computes the configuration it ends in. -/
namespace Iii.Lib

structure Pool (σ τ α : Type) where
  Start : σ → τ → Prop
  Exec : σ → τ → α → σ → List τ → Prop

structure Config (σ τ : Type) where
  state : σ
  tasks : Multiset τ

namespace Pool
variable {σ τ α ι : Type} {P : Pool σ τ α}

inductive Step (P : Pool σ τ α) : Config σ τ → Config σ τ → Prop where
  | start {s : σ} {t : τ} (ts : Multiset τ) (h : P.Start s t) : P.Step ⟨s, ts⟩ ⟨s, t ::ₘ ts⟩
  | exec {s s' : σ} {t : τ} {a : α} {news : List τ} (ts : Multiset τ) (h : P.Exec s t a s' news) :
      P.Step ⟨s, t ::ₘ ts⟩ ⟨s', ↑news + ts⟩

/-- From `s`, with nothing running. -/
def system (P : Pool σ τ α) (s : σ) : System (Config σ τ) where
  Init := fun c => c = ⟨s, 0⟩
  Step := P.Step

/-! A run, one step at a time. -/

theorem run_start {s : σ} {t : τ} {ts : Multiset τ} {c : Config σ τ} (h : P.Start s t)
    (hrun : Relation.ReflTransGen P.Step ⟨s, t ::ₘ ts⟩ c) : Relation.ReflTransGen P.Step ⟨s, ts⟩ c :=
  .head (.start ts h) hrun

theorem run_next {s s' : σ} {t u : τ} {a : α} {ts : Multiset τ} {c : Config σ τ} (h : P.Exec s t a s' [u])
    (hrun : Relation.ReflTransGen P.Step ⟨s', u ::ₘ ts⟩ c) : Relation.ReflTransGen P.Step ⟨s, t ::ₘ ts⟩ c := by
  refine .head (.exec ts h) ?_
  rwa [Multiset.coe_singleton, Multiset.singleton_add]

theorem run_end {s s' : σ} {t : τ} {a : α} {ts : Multiset τ} {c : Config σ τ} (h : P.Exec s t a s' [])
    (hrun : Relation.ReflTransGen P.Step ⟨s', ts⟩ c) : Relation.ReflTransGen P.Step ⟨s, t ::ₘ ts⟩ c := by
  refine .head (.exec ts h) ?_
  rwa [Multiset.coe_nil, Multiset.zero_add]

/-- Only the tasks and actions that meet a condition. -/
def only (P : Pool σ τ α) (A : τ → Prop) (C : σ → τ → α → Prop) : Pool σ τ α where
  Start := fun s t => A t ∧ P.Start s t
  Exec := fun s t a s' news => C s t a ∧ P.Exec s t a s' news

theorem only_step {A : τ → Prop} {C : σ → τ → α → Prop} {c c' : Config σ τ}
    (h : (P.only A C).Step c c') : P.Step c c' := by
  cases h with
  | start ts h => exact .start ts h.2
  | exec ts h => exact .exec ts h.2

theorem only_reachable {A : τ → Prop} {C : σ → τ → α → Prop} {s : σ} {c : Config σ τ}
    (h : ((P.only A C).system s).Reachable c) : (P.system s).Reachable c := by
  obtain ⟨c₀, hinit, hrun⟩ := h
  exact ⟨c₀, hinit, hrun.lift id fun _ _ => only_step⟩

/-- The steps in which the task that moves meets a condition on the state and on the other tasks. -/
inductive Guarded (P : Pool σ τ α) (C : σ → τ → α → Multiset τ → Prop) : Config σ τ → Config σ τ → Prop where
  | start {s : σ} {t : τ} (ts : Multiset τ) (h : P.Start s t) : P.Guarded C ⟨s, ts⟩ ⟨s, t ::ₘ ts⟩
  | exec {s s' : σ} {t : τ} {a : α} {news : List τ} (ts : Multiset τ) (hC : C s t a ts) (h : P.Exec s t a s' news) :
      P.Guarded C ⟨s, t ::ₘ ts⟩ ⟨s', ↑news + ts⟩

def guarded (P : Pool σ τ α) (C : σ → τ → α → Multiset τ → Prop) (s : σ) : System (Config σ τ) where
  Init := fun c => c = ⟨s, 0⟩
  Step := P.Guarded C

theorem guarded_reachable {C : σ → τ → α → Multiset τ → Prop} {s : σ} {c : Config σ τ}
    (h : (P.guarded C s).Reachable c) : (P.system s).Reachable c := by
  obtain ⟨c₀, hinit, hrun⟩ := h
  refine ⟨c₀, hinit, hrun.lift id fun c c' hstep => ?_⟩
  cases hstep with
  | start ts h => exact .start ts h
  | exec ts _ h => exact .exec ts h

/-! A schedule, played. -/

inductive Turn (τ α : Type) where
  | start (t : τ)
  /-- The task at place `i` runs `a`. -/
  | exec (i : Nat) (a : α)

/-- `allowed` is asked at each action, with the other tasks. -/
def play (starts : σ → τ → Bool) (step : σ → τ → α → Option (σ × List τ)) (allowed : σ → τ → α → List τ → Bool) :
    σ → List τ → List (Turn τ α) → Option (σ × List τ)
  | s, ts, [] => some (s, ts)
  | s, ts, .start t :: rest => if starts s t then play starts step allowed s (t :: ts) rest else none
  | s, ts, .exec i a :: rest =>
    match ts[i]? with
    | none => none
    | some t =>
      if allowed s t a (ts.eraseIdx i) then
        match step s t a with
        | none => none
        | some (s', news) => play starts step allowed s' (news ++ ts.eraseIdx i) rest
      else none

section Play
variable {starts : σ → τ → Bool} {step : σ → τ → α → Option (σ × List τ)} {allowed : σ → τ → α → List τ → Bool}
  {C : σ → τ → α → Multiset τ → Prop}

theorem play_run (hstart : ∀ s t, starts s t = true → P.Start s t)
    (hexec : ∀ s t a s' news, step s t a = some (s', news) → P.Exec s t a s' news)
    (hC : ∀ s t a (ts : List τ), allowed s t a ts = true → C s t a ↑ts) {turns : List (Turn τ α)} {s : σ} {ts : List τ}
    {c : σ × List τ} (h : play starts step allowed s ts turns = some c) :
    Relation.ReflTransGen (P.Guarded C) ⟨s, ↑ts⟩ ⟨c.1, ↑c.2⟩ := by
  induction turns generalizing s ts with
  | nil =>
    cases h
    exact .refl
  | cons turn rest ih =>
    cases turn with
    | start t =>
      obtain ⟨ht, h⟩ := Option.ite_none_right_eq_some.mp h
      exact .head (.start ↑ts (hstart s t ht)) (ih h)
    | exec i a =>
      unfold play at h
      split at h
      · cases h
      · rename_i t ht
        obtain ⟨hallowed, h⟩ := Option.ite_none_right_eq_some.mp h
        split at h
        · cases h
        · rename_i s' news hstep
          have hrun := Pool.Guarded.exec (↑(ts.eraseIdx i)) (hC s t a _ hallowed) (hexec s t a s' news hstep)
          have hts : (t ::ₘ (↑(ts.eraseIdx i) : Multiset τ)) = ↑ts := by
            obtain ⟨hi, rfl⟩ := List.getElem?_eq_some_iff.mp ht
            exact Multiset.coe_eq_coe.mpr (List.getElem_cons_eraseIdx_perm hi)
          rw [hts] at hrun
          exact .head hrun (ih h)

theorem play_guarded (starts : σ → τ → Bool) (step : σ → τ → α → Option (σ × List τ))
    (allowed : σ → τ → α → List τ → Bool) (s : σ) (turns : List (Turn τ α))
    (hstart : ∀ s t, starts s t = true → P.Start s t)
    (hexec : ∀ s t a s' news, step s t a = some (s', news) → P.Exec s t a s' news)
    (hC : ∀ s t a (ts : List τ), allowed s t a ts = true → C s t a ↑ts)
    {c : σ × List τ} (h : play starts step allowed s [] turns = some c) :
    (P.guarded C s).Reachable ⟨c.1, ↑c.2⟩ :=
  ⟨⟨s, 0⟩, rfl, play_run hstart hexec hC h⟩

theorem play_reachable (starts : σ → τ → Bool) (step : σ → τ → α → Option (σ × List τ)) (s : σ)
    (turns : List (Turn τ α)) (hstart : ∀ s t, starts s t = true → P.Start s t)
    (hexec : ∀ s t a s' news, step s t a = some (s', news) → P.Exec s t a s' news)
    {c : σ × List τ} (h : play starts step (fun _ _ _ _ => true) s [] turns = some c) :
    (P.system s).Reachable ⟨c.1, ↑c.2⟩ :=
  guarded_reachable (C := fun _ _ _ _ => True)
    (play_guarded starts step _ s turns hstart hexec (fun _ _ _ _ _ => trivial) h)

end Play

/-- `J` is true of the state and `L` of each task. -/
structure Kept (P : Pool σ τ α) (J : σ → Prop) (L : σ → τ → Prop) : Prop where
  start : ∀ {s t}, J s → P.Start s t → L s t
  exec : ∀ {s t a s' news}, J s → L s t → P.Exec s t a s' news → J s' ∧ ∀ u ∈ news, L s' u
  stable : ∀ {s t a s' news u}, J s → L s t → L s u → P.Exec s t a s' news → L s' u

theorem Kept.reachable {J : σ → Prop} {L : σ → τ → Prop} (h : P.Kept J L) {s : σ} (hs : J s)
    {c : Config σ τ} (hc : (P.system s).Reachable c) : J c.state ∧ ∀ t ∈ c.tasks, L c.state t := by
  apply System.Reachable.invariant (I := fun c => J c.state ∧ ∀ t ∈ c.tasks, L c.state t) _ _ hc
  · rintro c rfl
    exact ⟨hs, by simp⟩
  · rintro c c' - ⟨hJ, hL⟩ hstep
    cases hstep with
    | start ts hstart =>
      refine ⟨hJ, fun u hu => ?_⟩
      rcases Multiset.mem_cons.mp hu with rfl | hu
      · exact h.start hJ hstart
      · exact hL u hu
    | exec ts hexec =>
      have ht := hL _ (Multiset.mem_cons_self _ _)
      obtain ⟨hJ', hnews⟩ := h.exec hJ ht hexec
      refine ⟨hJ', fun u hu => ?_⟩
      rcases Multiset.mem_add.mp hu with hu | hu
      · exact hnews u (by simpa using hu)
      · exact h.stable hJ ht (hL u (Multiset.mem_cons_of_mem hu)) hexec

/-- For every `i`, `G` holds or some task is responsible. -/
structure Covered (P : Pool σ τ α) (J : σ → Prop) (L : σ → τ → Prop) (G : σ → ι → Prop)
    (R : σ → τ → ι → Prop) : Prop where
  exec : ∀ {s t a s' news i}, J s → L s t → P.Exec s t a s' news → G s i ∨ R s t i →
    G s' i ∨ ∃ u ∈ news, R s' u i
  stable : ∀ {s t a s' news u i}, J s → L s t → L s u → P.Exec s t a s' news → R s u i →
    G s' i ∨ R s' u i ∨ ∃ v ∈ news, R s' v i

theorem Covered.reachable {J : σ → Prop} {L : σ → τ → Prop} {G : σ → ι → Prop} {R : σ → τ → ι → Prop}
    (h : P.Covered J L G R) (hkept : P.Kept J L) {s : σ} (hs : J s) (hG : ∀ i, G s i)
    {c : Config σ τ} (hc : (P.system s).Reachable c) (i : ι) :
    G c.state i ∨ ∃ t ∈ c.tasks, R c.state t i := by
  apply System.Reachable.invariant (I := fun c => G c.state i ∨ ∃ t ∈ c.tasks, R c.state t i) _ _ hc
  · rintro c rfl
    exact .inl (hG i)
  · rintro c c' hreach hcover hstep
    obtain ⟨hJ, hL⟩ := hkept.reachable hs hreach
    cases hstep with
    | start ts hstart =>
      rcases hcover with hcover | ⟨t, ht, hcover⟩
      · exact .inl hcover
      · exact .inr ⟨t, Multiset.mem_cons_of_mem ht, hcover⟩
    | @exec s s' t a news ts hexec =>
      have ht := hL t (Multiset.mem_cons_self _ _)
      have hnew : (G s' i ∨ ∃ u ∈ news, R s' u i) →
          G s' i ∨ ∃ u ∈ (↑news + ts : Multiset τ), R s' u i := by
        rintro (hG | ⟨u, hu, hR⟩)
        · exact .inl hG
        · exact .inr ⟨u, Multiset.mem_add.mpr (.inl (by simpa using hu)), hR⟩
      rcases hcover with hcover | ⟨u, hu, hcover⟩
      · exact hnew (h.exec hJ ht hexec (.inl hcover))
      · rcases Multiset.mem_cons.mp hu with rfl | hu'
        · exact hnew (h.exec hJ ht hexec (.inr hcover))
        · rcases h.stable hJ ht (hL u hu) hexec hcover with hG | hR | hnews
          · exact .inl hG
          · exact .inr ⟨u, Multiset.mem_add.mpr (.inr hu'), hR⟩
          · exact hnew (.inr hnews)

/-- For every `i`, `G` holds or some task still owes it, in the runs whose steps meet a condition. -/
structure Owed (P : Pool σ τ α) (C : σ → τ → α → Multiset τ → Prop) (J : σ → Prop) (L : σ → τ → Prop)
    (G : σ → ι → Prop) (R : τ → ι → Prop) : Prop where
  exec : ∀ {s t a s' news ts i}, J s → L s t → C s t a ts → P.Exec s t a s' news → G s i ∨ R t i →
    G s' i ∨ (∃ u ∈ news, R u i) ∨ ∃ u ∈ ts, R u i

theorem Owed.reachable {C : σ → τ → α → Multiset τ → Prop} {J : σ → Prop} {L : σ → τ → Prop} {G : σ → ι → Prop}
    {R : τ → ι → Prop} (h : P.Owed C J L G R) (hkept : P.Kept J L) {s : σ} (hs : J s) (hG : ∀ i, G s i)
    {c : Config σ τ} (hc : (P.guarded C s).Reachable c) (i : ι) : G c.state i ∨ ∃ t ∈ c.tasks, R t i := by
  apply System.Reachable.invariant (I := fun c => G c.state i ∨ ∃ t ∈ c.tasks, R t i) _ _ hc
  · rintro c rfl
    exact .inl (hG i)
  · rintro c c' hreach hcover hstep
    obtain ⟨hJ, hL⟩ := hkept.reachable hs (guarded_reachable hreach)
    cases hstep with
    | start ts hstart => exact hcover.imp_right fun ⟨t, ht, hR⟩ => ⟨t, Multiset.mem_cons_of_mem ht, hR⟩
    | @exec s s' t a news ts hC hexec =>
      have hmoved : G s i ∨ R t i → G s' i ∨ ∃ u ∈ (↑news + ts : Multiset τ), R u i := by
        intro hmover
        rcases h.exec hJ (hL t (Multiset.mem_cons_self _ _)) hC hexec hmover with hG | ⟨u, hu, hR⟩ | ⟨u, hu, hR⟩
        · exact .inl hG
        · exact .inr ⟨u, Multiset.mem_add.mpr (.inl (Multiset.mem_coe.mpr hu)), hR⟩
        · exact .inr ⟨u, Multiset.mem_add.mpr (.inr hu), hR⟩
      rcases hcover with hG | ⟨u, hu, hR⟩
      · exact hmoved (.inl hG)
      · rcases Multiset.mem_cons.mp hu with rfl | hu
        · exact hmoved (.inr hR)
        · exact .inr ⟨u, Multiset.mem_add.mpr (.inr hu), hR⟩

theorem reachable_invariant {J : σ → Prop} (hexec : ∀ {s t a s' news}, J s → P.Exec s t a s' news → J s') {s : σ}
    (hs : J s) {c : Config σ τ} (hc : (P.system s).Reachable c) : J c.state := by
  have hkept : P.Kept J fun _ _ => True :=
    ⟨fun _ _ => trivial, fun hJ _ h => ⟨hexec hJ h, fun _ _ => trivial⟩, fun _ _ _ _ => trivial⟩
  exact (hkept.reachable hs hc).1

/-- What each task has in hand is the difference between `f` and `g`. -/
structure Balanced {M : Type} [AddCommMonoid M] (P : Pool σ τ α) (f g : σ → M) (w : τ → M) : Prop where
  start : ∀ {s t}, P.Start s t → w t = 0
  exec : ∀ {s t a s' news}, P.Exec s t a s' news →
    ∀ n, f s = g s + (w t + n) → f s' = g s' + ((news.map w).sum + n)

theorem Balanced.reachable {M : Type} [AddCommMonoid M] {f g : σ → M} {w : τ → M} (h : P.Balanced f g w) {s : σ}
    (hfg : f s = g s) {c : Config σ τ} (hc : (P.system s).Reachable c) :
    f c.state = g c.state + (c.tasks.map w).sum := by
  apply System.Reachable.invariant (I := fun c => f c.state = g c.state + (c.tasks.map w).sum) _ _ hc
  · rintro c rfl
    simpa using hfg
  · rintro c c' - hsum hstep
    cases hstep with
    | start ts hstart => simpa [h.start hstart] using hsum
    | @exec s s' t a news ts hexec =>
      rw [Multiset.map_cons, Multiset.sum_cons] at hsum
      have hafter := h.exec hexec _ hsum
      rwa [Multiset.map_add, Multiset.sum_add, Multiset.map_coe, Multiset.sum_coe]

end Pool

end Iii.Lib
