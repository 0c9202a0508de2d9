import Mathlib.Order.Lattice
import Mathlib.Data.List.Lex

/-! Codes of words over one alphabet by words over another.

A code writes each letter as a word. When no letter's word starts another's
(`PrefixCode`), the code of a word determines the word, and one code starts
another only between letters (`encode_injective`, `encode_isPrefix_iff`). When moreover a
smaller letter's word is below a larger letter's whatever follows either
(`LexCode`), the code keeps the lexicographic order (`encode_lt_iff`). -/
namespace Iii.Lib

/-- A code whose letters can be read off one by one. -/
structure PrefixCode (α β : Type) where
  word : α → List β
  ne_nil : ∀ a, word a ≠ []
  cancel : ∀ {a b x y}, word a ++ x = word b ++ y → a = b ∧ x = y

namespace PrefixCode
variable {α β : Type} (C : PrefixCode α β)

def encode (w : List α) : List β := w.flatMap C.word

theorem encode_cons (a : α) (w : List α) : C.encode (a :: w) = C.word a ++ C.encode w := by
  simp [encode]

theorem encode_append (v w : List α) : C.encode (v ++ w) = C.encode v ++ C.encode w := by
  simp [encode]

theorem encode_isPrefix_iff {v w : List α} : C.encode v <+: C.encode w ↔ v <+: w := by
  constructor
  · intro h
    obtain ⟨x, hx⟩ := h
    induction v generalizing w with
    | nil => exact List.nil_prefix
    | cons a v ih =>
      cases w with
      | nil =>
        have hnil := C.ne_nil a
        simp_all [encode]
      | cons b w =>
        rw [encode_cons, encode_cons, List.append_assoc] at hx
        obtain ⟨rfl, hrest⟩ := C.cancel hx
        exact (List.cons_prefix_cons).mpr ⟨rfl, ih hrest⟩
  · intro h
    obtain ⟨x, rfl⟩ := h
    rw [encode_append]
    exact List.prefix_append _ _

theorem encode_injective : Function.Injective C.encode := by
  intro v w h
  have hvw : v <+: w := C.encode_isPrefix_iff.mp ⟨[], by rw [h, List.append_nil]⟩
  have hwv : w <+: v := C.encode_isPrefix_iff.mp ⟨[], by rw [h, List.append_nil]⟩
  exact hvw.eq_of_length_le hwv.length_le

/-- Two codes joined by a letter that no word starts with come apart again. -/
theorem join_cancel {s : β} (hs : ∀ a, (C.word a).head? ≠ some s) {v w : List α} {x y : List β}
    (h : C.encode v ++ s :: x = C.encode w ++ s :: y) : v = w ∧ x = y := by
  have hhead : ∀ (a : α) (v : List α) (x : List β), (C.encode (a :: v) ++ s :: x).head? ≠ some s := by
    intro a v x
    rw [encode_cons, List.append_assoc, List.head?_append_of_ne_nil _ (C.ne_nil a)]
    exact hs a
  induction v generalizing w with
  | nil =>
    cases w with
    | nil => exact ⟨rfl, (List.cons.inj h).2⟩
    | cons b w => exact absurd (congrArg List.head? h).symm (hhead b w y)
  | cons a v ih =>
    cases w with
    | nil => exact absurd (congrArg List.head? h) (hhead a v x)
    | cons b w =>
      rw [encode_cons, encode_cons, List.append_assoc, List.append_assoc] at h
      obtain ⟨rfl, hrest⟩ := C.cancel h
      obtain ⟨rfl, hxy⟩ := ih hrest
      exact ⟨rfl, hxy⟩

end PrefixCode

/-- Comparing lists of numbers is the lexicographic order. -/
theorem compare_lt {a b : List Nat} : compare a b = .lt ↔ a < b := by
  induction a generalizing b with
  | nil =>
    cases b with
    | nil => simp
    | cons y b => simp [List.compare_nil_cons]
  | cons x a ih =>
    cases b with
    | nil => simp [List.compare_cons_nil]
    | cons y b =>
      rw [List.compare_cons_cons, List.cons_lt_cons_iff, ← ih, Ordering.then_eq_lt,
        Nat.compare_eq_lt, Nat.compare_eq_eq]

/-- A code that keeps the order of letters, whatever follows them. -/
structure LexCode (α β : Type) [LinearOrder α] [LinearOrder β] where
  word : α → List β
  ne_nil : ∀ a, word a ≠ []
  lt_of_lt : ∀ a b, a < b → ∀ x y : List β, word a ++ x < word b ++ y

namespace LexCode
variable {α β : Type} [LinearOrder α] [LinearOrder β] (C : LexCode α β)

def encode (w : List α) : List β := w.flatMap C.word

@[simp] theorem encode_nil : C.encode [] = [] := rfl

@[simp] theorem encode_cons (a : α) (w : List α) : C.encode (a :: w) = C.word a ++ C.encode w := by
  simp [encode]

@[simp] theorem encode_append (v w : List α) : C.encode (v ++ w) = C.encode v ++ C.encode w := by
  simp [encode]

theorem append_lt_append_left (x : List β) {y z : List β} (h : y < z) : x ++ y < x ++ z := by
  induction x with
  | nil => exact h
  | cons b rest ih => exact List.Lex.cons ih

theorem encode_lt {v w : List α} (h : v < w) : C.encode v < C.encode w := by
  induction h with
  | nil =>
    rename_i b w
    rw [encode_nil, encode_cons]
    cases hw : C.word b with
    | nil => exact absurd hw (C.ne_nil b)
    | cons c rest => exact List.Lex.nil
  | cons _ ih =>
    rw [encode_cons, encode_cons]
    exact append_lt_append_left _ ih
  | rel h =>
    rw [encode_cons, encode_cons]
    exact C.lt_of_lt _ _ h _ _

theorem encode_strictMono : StrictMono C.encode := fun _ _ h => C.encode_lt h

/-- No letter's word starts another's. -/
theorem word_append_inj {a b : α} {x y : List β} (h : C.word a ++ x = C.word b ++ y) :
    a = b ∧ x = y := by
  rcases lt_trichotomy a b with hab | rfl | hab
  · exact absurd h (C.lt_of_lt a b hab x y).ne
  · exact ⟨rfl, List.append_cancel_left h⟩
  · exact absurd h (C.lt_of_lt b a hab y x).ne'

def toPrefixCode : PrefixCode α β := ⟨C.word, C.ne_nil, C.word_append_inj⟩

theorem encode_injective : Function.Injective C.encode := C.encode_strictMono.injective

theorem encode_isPrefix_iff {v w : List α} : C.encode v <+: C.encode w ↔ v <+: w :=
  C.toPrefixCode.encode_isPrefix_iff

/-- Two codes of one alphabet compare alike. -/
theorem compare_encode (C D : LexCode α Nat) (v w : List α) :
    compare (C.encode v) (C.encode w) = compare (D.encode v) (D.encode w) := by
  rcases lt_trichotomy v w with h | rfl | h
  · rw [compare_lt.mpr (C.encode_lt h), compare_lt.mpr (D.encode_lt h)]
  · rw [Std.compare_self, Std.compare_self]
  · rw [Std.OrientedCmp.gt_of_lt (compare_lt.mpr (C.encode_lt h)),
      Std.OrientedCmp.gt_of_lt (compare_lt.mpr (D.encode_lt h))]

end LexCode
end Iii.Lib
