import Mathlib.Algebra.Ring.Nat
import Mathlib.Tactic.Common

/-! Computations that may trap.

Machine arithmetic that does not fit its word, an index or a range outside a list, and a buffer
longer than memory can be stop a program with a trap; a loop is given so many rounds and runs out of
them. An error is a result like any other. `Ends` says that a computation has a result, and what is
true of its value. -/
namespace Iii.Lib

inductive Halt (E : Type) where
  | error (e : E)
  | trap
  | ranOut

abbrev Trap (E α : Type) := Except (Halt E) α

namespace Trap
variable {E α β : Type}

def fail (e : E) : Trap E α := .error (.error e)

def ranOut : Trap E α := .error .ranOut

/-- A sum in a word of so many bits. -/
def add (bits a b : Nat) : Trap E Nat := if a + b < 2 ^ bits then .ok (a + b) else .error .trap

def mul (bits a b : Nat) : Trap E Nat := if a * b < 2 ^ bits then .ok (a * b) else .error .trap

def sub (a b : Nat) : Trap E Nat := if b ≤ a then .ok (a - b) else .error .trap

def index (l : List α) (i : Nat) : Trap E α :=
  match l[i]? with
  | some a => .ok a
  | none => .error .trap

def slice (l : List α) (i j : Nat) : Trap E (List α) :=
  if i ≤ j ∧ j ≤ l.length then .ok ((l.drop i).take (j - i)) else .error .trap

/-- A buffer of so many elements, which must be fewer than half of what a word can count. -/
def allocate (bits n : Nat) (a : α) : Trap E (List α) :=
  if n < 2 ^ (bits - 1) then .ok (List.replicate n a) else .error .trap

/-- Writing to a part of a buffer. -/
def write (l : List α) (i : Nat) (part : List α) : Trap E (List α) :=
  if i + part.length ≤ l.length then .ok (l.take i ++ part ++ l.drop (i + part.length)) else .error .trap

/-- The computation ends: with an error, or with a value that `Q` is true of. -/
def Ends (x : Trap E α) (Q : α → Prop) : Prop :=
  match x with
  | .ok a => Q a
  | .error (.error _) => True
  | .error _ => False

variable {Q R : α → Prop} {x : Trap E α}

theorem Ends.fail (e : E) : Ends (fail e : Trap E α) Q := trivial

theorem Ends.mono (h : Ends x Q) (himp : ∀ a, Q a → R a) : Ends x R := by
  match x, h with
  | .ok a, h => exact himp a h
  | .error (.error _), _ => trivial

theorem Ends.bind {S : β → Prop} {f : α → Trap E β} (h : Ends x Q) (hf : ∀ a, Q a → Ends (f a) S) :
    Ends (x >>= f) S := by
  match x, h with
  | .ok a, h => exact hf a h
  | .error (.error _), _ => trivial

theorem Ends.ite {c : Prop} [Decidable c] {y : Trap E α} (hx : c → Ends x Q) (hy : ¬c → Ends y Q) :
    Ends (if c then x else y) Q := by
  split
  · rename_i h
    exact hx h
  · rename_i h
    exact hy h

theorem ends_add {bits a b : Nat} (h : a + b < 2 ^ bits) : Ends (add bits a b : Trap E Nat) (· = a + b) := by
  rw [add, if_pos h]
  rfl

theorem ends_mul {bits a b : Nat} (h : a * b < 2 ^ bits) : Ends (mul bits a b : Trap E Nat) (· = a * b) := by
  rw [mul, if_pos h]
  rfl

theorem ends_sub {a b : Nat} (h : b ≤ a) : Ends (sub a b : Trap E Nat) (· = a - b) := by
  rw [sub, if_pos h]
  rfl

theorem ends_index {l : List α} {i : Nat} (h : i < l.length) : Ends (index l i : Trap E α) (l[i]? = some ·) := by
  unfold index
  rw [List.getElem?_eq_getElem h]
  rfl

theorem ends_slice {l : List α} {i j : Nat} (h : i ≤ j) (hj : j ≤ l.length) :
    Ends (slice l i j : Trap E (List α)) (·.length = j - i) := by
  rw [slice, if_pos ⟨h, hj⟩]
  show ((l.drop i).take (j - i)).length = j - i
  rw [List.length_take, List.length_drop]
  omega

theorem ends_allocate {bits n : Nat} {a : α} (h : n < 2 ^ (bits - 1)) :
    Ends (allocate bits n a : Trap E (List α)) (·.length = n) := by
  rw [allocate, if_pos h]
  exact List.length_replicate

theorem ends_write {l part : List α} {i : Nat} (h : i + part.length ≤ l.length) :
    Ends (write l i part : Trap E (List α)) (·.length = l.length) := by
  rw [write, if_pos h]
  show (l.take i ++ part ++ l.drop (i + part.length)).length = l.length
  simp only [List.length_append, List.length_take, List.length_drop]
  omega

/-! ### More rounds -/

/-- The computation `y` does what `x` does, unless `x` runs out. -/
def Below (x y : Trap E α) : Prop := x = .error .ranOut ∨ x = y

theorem Below.refl (x : Trap E α) : Below x x := .inr rfl

theorem Below.trans {y z : Trap E α} (h : Below x y) (h' : Below y z) : Below x z := by
  rcases h with h | rfl
  · exact .inl h
  · exact h'

theorem Below.bind {y : Trap E α} {f g : α → Trap E β} (h : Below x y) (hf : ∀ a, Below (f a) (g a)) :
    Below (x >>= f) (y >>= g) := by
  rcases h with rfl | rfl
  · exact .inl rfl
  · match x with
    | .ok a => exact hf a
    | .error e => exact .inr rfl

theorem Below.ite {c : Prop} [Decidable c] {x' y y' : Trap E α} (hx : Below x x') (hy : Below y y') :
    Below (if c then x else y) (if c then x' else y') := by
  split
  · exact hx
  · exact hy

/-- A computation that ends does not run out. -/
theorem Below.eq {y : Trap E α} (h : Below x y) (hx : Ends x Q) : x = y := by
  rcases h with rfl | rfl
  · exact hx.elim
  · rfl

end Trap

end Iii.Lib
