import Mathlib.Data.List.DropRight

/-! The end of a list that grows, kept in a shorter list.

`Shows n w l` says that the window `w` ends as `l` does, as far as the last `n` elements
go. A window may be read to fewer elements, grow with its list, forget what the new
elements push out of sight, and be trimmed to what is in sight. -/
namespace Iii.Lib

variable {α : Type*} {w l : List α} {n k : Nat}

theorem rtake_append_length (l m : List α) (n : Nat) : (l ++ m).rtake (n + m.length) = l.rtake n ++ m := by
  have hle : l.length + m.length - (n + m.length) ≤ l.length := by omega
  have hlen : l.length + m.length - (n + m.length) = l.length - n := by omega
  rw [List.rtake, List.length_append, List.drop_append_of_le_length hle, hlen]
  rfl

theorem rtake_append_of_le (l : List α) {m : List α} (h : n ≤ m.length) : (l ++ m).rtake n = m.rtake n := by
  have hsplit : l.length + m.length - n = l.length + (m.length - n) := by omega
  rw [List.rtake, List.length_append, hsplit, ← List.drop_drop, List.drop_left]
  rfl

theorem rtake_rtake (l : List α) (h : n ≤ k) : (l.rtake k).rtake n = l.rtake n := by
  have hsum : l.length - k + (l.length - (l.length - k) - n) = l.length - n := by omega
  rw [List.rtake, List.rtake, List.drop_drop, List.length_drop, hsum]
  rfl

theorem rtake_drop (l : List α) (n k : Nat) : (l.drop k).rtake n = l.rtake (min n (l.length - k)) := by
  have hsum : k + (l.length - k - n) = l.length - min n (l.length - k) ∨ l.length ≤ k := by omega
  rw [List.rtake, List.rtake, List.length_drop, List.drop_drop]
  rcases hsum with hsum | hk
  · rw [hsum]
  · rw [List.drop_of_length_le (by omega), List.drop_of_length_le (by omega)]

/-- `w` ends as `l` does, as far as `n` elements go. -/
def Shows (n : Nat) (w l : List α) : Prop := w.rtake n = l.rtake n

namespace Shows

theorem refl (n : Nat) (l : List α) : Shows n l l := rfl

theorem mono (h : Shows n w l) (hk : k ≤ n) : Shows k w l := by
  rw [Shows, ← rtake_rtake w hk, h, rtake_rtake l hk]

/-- A window that grows with its list shows so much more of it. -/
theorem append (h : Shows n w l) (m : List α) : Shows (n + m.length) (w ++ m) (l ++ m) := by
  rw [Shows, rtake_append_length, rtake_append_length, h]

/-- New elements alone fill a window of their length. -/
theorem append_right (w l m : List α) (h : n ≤ m.length) : Shows n (w ++ m) (l ++ m) := by
  rw [Shows, rtake_append_of_le w h, rtake_append_of_le l h]

/-- Nothing out of sight has to be kept. -/
theorem trim (h : Shows n w l) (hk : n ≤ k) : Shows n (w.rtake k) l := by
  rw [Shows, rtake_rtake w hk, h]

end Shows

end Iii.Lib
