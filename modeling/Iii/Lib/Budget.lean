import Mathlib.Algebra.Ring.Nat
import Mathlib.Algebra.BigOperators.Group.List.Basic

/-! Validation under a budget.

A validator reads its input, spends units of a budget as it goes and either
returns what it built or fails. `Spends` is what such a computation promises from a
state: it succeeds exactly when the input is valid (`ok`) and its whole cost still
fits, it then has spent exactly that cost, and what it built and the state it left
satisfy `Q`. Failing early or late, in whatever order the parts are read, is not
part of the promise; that is why two validators that keep it accept the same
inputs. The rules follow the computation: `pure`, `refuse`, `bind`, `guard` and lists. -/
namespace Iii.Lib

/-- From state `s`, `p` succeeds iff `ok` and `cost` more units fit under `limit`. -/
def Spends {S ε α : Type} (used : S → Nat) (limit : Nat) (s : S) (p : StateT S (Except ε) α)
    (ok : Prop) (cost : Nat) (Q : α → S → Prop) : Prop :=
  used s ≤ limit →
    (ok → used s + cost ≤ limit →
      ∃ a s', p.run s = .ok (a, s') ∧ used s' = used s + cost ∧ Q a s') ∧
    (¬ (ok ∧ used s + cost ≤ limit) → ∃ e, p.run s = .error e)

namespace Spends
variable {S ε α β : Type} {used : S → Nat} {limit : Nat} {s : S}
variable {p : StateT S (Except ε) α} {ok ok' : Prop} {cost cost' : Nat} {Q Q' : α → S → Prop}

theorem pure {a : α} (h : Q a s) : Spends used limit s (Pure.pure a : StateT S (Except ε) α) True 0 Q :=
  fun hs => ⟨fun _ _ => ⟨a, s, rfl, rfl, h⟩, fun hn => absurd ⟨trivial, hs⟩ hn⟩

variable {f : α → StateT S (Except ε) β} {R : β → S → Prop}

theorem bind (hp : Spends used limit s p ok cost Q)
    (hf : ∀ a s', Q a s' → Spends used limit s' (f a) ok' cost' R) :
    Spends used limit s (p >>= f) (ok ∧ ok') (cost + cost') R := by
  intro hs
  obtain ⟨hsucc, herr⟩ := hp hs
  by_cases hfit : ok ∧ used s + cost ≤ limit
  · obtain ⟨a, s', hrun, hused, hQ⟩ := hsucc hfit.1 hfit.2
    obtain ⟨hsucc', herr'⟩ := hf a s' hQ (by rw [hused]; exact hfit.2)
    have hbind : (p >>= f).run s = (f a).run s' := by
      rw [StateT.run_bind, hrun]
      rfl
    rw [hbind]
    refine ⟨fun hok hcost => ?_, fun hn => herr' fun h => hn ⟨⟨hfit.1, h.1⟩, by omega⟩⟩
    obtain ⟨b, t, hrun', hused', hR⟩ := hsucc' hok.2 (by omega)
    exact ⟨b, t, hrun', by omega, hR⟩
  · obtain ⟨e, hrun⟩ := herr hfit
    refine ⟨fun hok hcost => absurd ⟨hok.1, by omega⟩ hfit, fun _ => ⟨e, ?_⟩⟩
    rw [StateT.run_bind, hrun]
    rfl

theorem mono (hp : Spends used limit s p ok cost Q) (hok : ok ↔ ok') (hcost : ok → cost = cost')
    (hQ : ok → ∀ a s', Q a s' → Q' a s') : Spends used limit s p ok' cost' Q' := by
  intro hs
  obtain ⟨hsucc, herr⟩ := hp hs
  constructor
  · intro h hfit
    obtain ⟨a, s', hrun, hused, hq⟩ := hsucc (hok.mpr h) (by rw [hcost (hok.mpr h)]; exact hfit)
    exact ⟨a, s', hrun, by rw [hused, hcost (hok.mpr h)], hQ (hok.mpr h) a s' hq⟩
  · intro hn
    exact herr fun h => hn ⟨hok.mp h.1, by rw [← hcost h.1]; exact h.2⟩

/-- A failure where the input is not valid. -/
theorem refuse {e : ε} (h : ¬ ok) : Spends used limit s (throw e : StateT S (Except ε) α) ok cost Q :=
  fun _ => ⟨fun hok => absurd hok h, fun _ => ⟨e, rfl⟩⟩

/-- One unit is counted first and checked against the limit then. -/
theorem spend {m : S → S} {e : ε} {Q : Unit → S → Prop} (hused : used (m s) = used s + 1) (hQ : Q () (m s)) :
    Spends used limit s (do
        let s ← get
        set (m s)
        if used s + 1 > limit then throw e else (Pure.pure () : StateT S (Except ε) Unit)) True 1 Q := by
  refine fun _ => ⟨fun _ hfit => ⟨(), m s, ?_, hused, hQ⟩, fun hn => ⟨e, ?_⟩⟩
  · show (if used s + 1 > limit then throw e else Pure.pure () : StateT S (Except ε) Unit) (m s) = _
    rw [if_neg (Nat.not_lt_of_le hfit)]
    rfl
  · show (if used s + 1 > limit then throw e else Pure.pure () : StateT S (Except ε) Unit) (m s) = _
    rw [if_pos (Nat.lt_of_not_le fun hfit => hn ⟨trivial, hfit⟩)]
    rfl

/-- A last step that only shapes the result. -/
theorem map {f : α → β} (hp : Spends used limit s p ok cost Q) (h : ∀ a s', Q a s' → R (f a) s') :
    Spends used limit s (p >>= fun a => Pure.pure (f a)) ok cost R :=
  (bind hp fun a s' hq => pure (h a s' hq)).mono (by simp) (fun _ => rfl) (fun _ _ _ h => h)

/-- A pure check in front of a computation. -/
theorem guard {x : Except ε α} (hx : (∃ a, x = .ok a) ↔ ok)
    (hf : ∀ a, x = .ok a → Spends used limit s (f a) ok' cost R) :
    Spends used limit s ((liftM x : StateT S (Except ε) α) >>= f) (ok ∧ ok') cost R := by
  cases x with
  | error e =>
    have hno : ¬ ok := by
      rw [← hx]
      rintro ⟨a, h⟩
      cases h
    exact fun _ => ⟨fun h => absurd h.1 hno, fun _ => ⟨e, rfl⟩⟩
  | ok a => exact (hf a rfl).mono (by simp [hx.mp ⟨a, rfl⟩]) (fun _ => rfl) (fun _ _ _ h => h)

theorem guard_ok {x : Except ε α} {a : α} (hx : x = .ok a) (hf : Spends used limit s (f a) ok cost R) :
    Spends used limit s ((liftM x : StateT S (Except ε) α) >>= f) ok cost R := by
  subst hx
  exact hf

theorem guard_error {x : Except ε α} {e : ε} (hx : x = .error e) (h : ¬ ok) :
    Spends used limit s ((liftM x : StateT S (Except ε) α) >>= f) ok cost R := by
  subst hx
  exact fun _ => ⟨fun hok => absurd hok h, fun _ => ⟨e, rfl⟩⟩

/-- A list read left to right, under an invariant of what is done and what was built. -/
theorem mapM {good : α → Prop} {price : α → Nat} (I : List α → List β → S → Prop) (l : List α) (done : List α)
    (built : List β) (s : S)
    (hf : ∀ x ∈ l, ∀ done built s, I done built s →
      Spends used limit s (f x) (good x) (price x) (fun b s' => I (done ++ [x]) (built ++ [b]) s'))
    (hI : I done built s) :
    Spends used limit s (l.mapM f) (∀ x ∈ l, good x) (l.map price).sum
      (fun bs s' => I (done ++ l) (built ++ bs) s') := by
  induction l generalizing done built s with
  | nil =>
    rw [List.mapM_nil]
    exact (pure (Q := fun bs s' => I (done ++ []) (built ++ bs) s') (by simpa using hI)).mono
      (by simp) (by simp) (fun _ _ _ h => h)
  | cons x rest ih =>
    rw [List.mapM_cons]
    refine (bind (hf x (List.mem_cons_self ..) done built s hI) (fun b s' hb =>
      bind (ih (done ++ [x]) (built ++ [b]) s' (fun y hy => hf y (List.mem_cons_of_mem _ hy)) hb)
        (fun bs s'' hbs => pure (Q := fun bs s' => I (done ++ x :: rest) (built ++ bs) s')
          (by simpa using hbs)))).mono (by simp) (by simp) (fun _ _ _ h => h)

/-- The same without state: each item builds something related to it. -/
theorem mapM_forall₂ {good : α → Prop} {price : α → Nat} (R : α → β → Prop) (l : List α) (s : S)
    (hf : ∀ x ∈ l, ∀ s, Spends used limit s (f x) (good x) (price x) (fun b _ => R x b)) :
    Spends used limit s (l.mapM f) (∀ x ∈ l, good x) (l.map price).sum
      (fun bs _ => List.Forall₂ R l bs) := by
  refine (mapM (fun done built _ => List.Forall₂ R done built) l [] [] s
    (fun x hx done built s hI => ?_) .nil).mono Iff.rfl (fun _ => rfl) (fun _ _ _ h => by simpa using h)
  exact (hf x hx s).mono Iff.rfl (fun _ => rfl)
    (fun _ b _ hb => List.rel_append hI (.cons hb .nil))

/-- Two validators of one input that agree on validity and cost accept the same inputs. -/
theorem accepts_iff (hp : Spends used limit s p ok cost Q) (hs : used s ≤ limit) :
    (∃ r, p.run s = .ok r) ↔ ok ∧ used s + cost ≤ limit := by
  obtain ⟨hsucc, herr⟩ := hp hs
  constructor
  · rintro ⟨r, hr⟩
    by_contra hn
    obtain ⟨e, he⟩ := herr hn
    rw [hr] at he
    cases he
  · rintro ⟨hok, hfit⟩
    obtain ⟨a, s', hrun, _⟩ := hsucc hok hfit
    exact ⟨_, hrun⟩

/-- What an accepting run returned. -/
theorem of_run (hp : Spends used limit s p ok cost Q) (hs : used s ≤ limit) {a : α} {s' : S}
    (hrun : p.run s = .ok (a, s')) : ok ∧ used s' = used s + cost ∧ used s' ≤ limit ∧ Q a s' := by
  have hfit := (hp.accepts_iff hs).mp ⟨_, hrun⟩
  obtain ⟨a', t, hrun', hused, hQ⟩ := (hp hs).1 hfit.1 hfit.2
  rw [hrun] at hrun'
  cases hrun'
  exact ⟨hfit.1, hused, by rw [hused]; exact hfit.2, hQ⟩

end Spends
end Iii.Lib
