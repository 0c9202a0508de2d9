import Mathlib.Algebra.Order.Ring.Int
import Mathlib.Data.Nat.Log

/-! JSON numbers as the programs hold them.

`serde_json` keeps an integer exactly (`PosInt`, `NegInt`) and everything else as
a finite double. A finite double is a whole number of units of `2^-1074`, the
smallest positive one, so its value is kept as that whole number: doubles compare
as integers, and nothing here is approximate. -/
namespace Iii

/-- One, in units of `2^-1074`. -/
def F64.one : Int := 2 ^ 1074

/-- A finite IEEE-754 double: `mant * 2^exp` units of `2^-1074`, with the
significand of a normal number using all its 53 bits. -/
structure F64 where
  neg : Bool
  mant : Nat
  exp : Nat
  mant_lt : mant < 2 ^ 53
  exp_le : exp ≤ 2045
  normal : exp ≠ 0 → 2 ^ 52 ≤ mant
  deriving DecidableEq

def signed (neg : Bool) (n : Int) : Int := if neg then -n else n

/-- The value a double compares by: `-0` and `0` are one value. -/
def F64.value (f : F64) : Int := signed f.neg (f.mant * 2 ^ f.exp)

/-- A double is its sign and its magnitude: the significand fixes the exponent. -/
theorem F64.ext_magnitude {a b : F64} (hneg : a.neg = b.neg)
    (h : a.mant * 2 ^ a.exp = b.mant * 2 ^ b.exp) : a = b := by
  have hle : ∀ {a b : F64}, a.mant * 2 ^ a.exp = b.mant * 2 ^ b.exp → b.exp ≤ a.exp := by
    intro a b h
    by_contra hlt
    have hnormal := b.normal (by omega)
    have hsplit : 2 ^ b.exp = 2 ^ a.exp * 2 ^ (b.exp - a.exp) := by
      rw [← Nat.pow_add]
      congr 1
      omega
    rw [hsplit, Nat.mul_comm (2 ^ a.exp), ← Nat.mul_assoc] at h
    have hmant := Nat.eq_of_mul_eq_mul_right (Nat.two_pow_pos _) h
    have htwo : 2 ^ 1 ≤ 2 ^ (b.exp - a.exp) := Nat.pow_le_pow_right (by decide) (by omega)
    have hbig : 2 ^ 52 * 2 ^ 1 ≤ b.mant * 2 ^ (b.exp - a.exp) := Nat.mul_le_mul hnormal htwo
    have := a.mant_lt
    omega
  have hexp : a.exp = b.exp := Nat.le_antisymm (hle h.symm) (hle h)
  rw [hexp] at h
  have hmant := Nat.eq_of_mul_eq_mul_right (Nat.two_pow_pos _) h
  obtain ⟨na, ma, ea, _, _, _⟩ := a
  obtain ⟨nb, mb, eb, _, _, _⟩ := b
  simp only at hneg hexp hmant
  subst hneg hexp hmant
  rfl

/-- `n as f64` for a natural number: the nearest 53-bit value, ties to even. -/
def roundNat (n : Nat) : Nat :=
  if n < 2 ^ 53 then n
  else
    let e := Nat.log2 n - 52
    let q := n / 2 ^ e
    let r := n % 2 ^ e
    let half := 2 ^ (e - 1)
    (if half < r ∨ (r = half ∧ q % 2 = 1) then q + 1 else q) * 2 ^ e

theorem roundNat_small {n : Nat} (h : n < 2 ^ 53) : roundNat n = n := if_pos h

/-- Rounding never falls below the power of two below. -/
theorem pow_log2_le_roundNat {n : Nat} (h : 2 ^ 53 ≤ n) : 2 ^ Nat.log2 n ≤ roundNat n := by
  have hn : n ≠ 0 := by omega
  have hlog : 53 ≤ Nat.log2 n := (Nat.le_log2 hn).mpr h
  have hsplit : 2 ^ Nat.log2 n = 2 ^ 52 * 2 ^ (Nat.log2 n - 52) := by
    rw [← Nat.pow_add]
    congr 1
    omega
  have hq : 2 ^ 52 ≤ n / 2 ^ (Nat.log2 n - 52) := by
    rw [Nat.le_div_iff_mul_le (Nat.two_pow_pos _), ← hsplit]
    exact Nat.log2_self_le hn
  unfold roundNat
  rw [if_neg (by omega), hsplit]
  refine Nat.mul_le_mul_right _ ?_
  split <;> omega

theorem roundNat_ge {n k : Nat} (hk : 53 ≤ k) (h : 2 ^ k ≤ n) : 2 ^ k ≤ roundNat n := by
  have hpow : 2 ^ 53 ≤ 2 ^ k := Nat.pow_le_pow_right (by decide) hk
  have hn : n ≠ 0 := by omega
  have hlog : k ≤ Nat.log2 n := (Nat.le_log2 hn).mpr h
  exact (Nat.pow_le_pow_right (by decide) hlog).trans (pow_log2_le_roundNat (hpow.trans h))

/-- A `serde_json::Number`. `negInt m` is `-(m + 1)`: a `NegInt` is below zero. -/
inductive Number where
  | posInt (u : Fin (2 ^ 64))
  | negInt (m : Fin (2 ^ 63))
  | float (f : F64)
  deriving DecidableEq

/-- `number_as_f64`: every number compares as a double. -/
def Number.asF64 : Number → Int
  | .posInt u => roundNat u * F64.one
  | .negInt m => -(roundNat (m + 1) * F64.one)
  | .float f => f.value

def maxSafeInteger : Nat := 2 ^ 53

/-- `number_in_range`: integers are compared exactly, any other number by its double. -/
def Number.inRange : Number → Bool
  | .posInt u => u ≤ maxSafeInteger
  | .negInt m => m + 1 ≤ maxSafeInteger
  | .float f => f.value.natAbs ≤ maxSafeInteger * 2 ^ 1074

/-- What the decoders read of the text of a number: the digits of an integer
spelled without `.`, `e` or `E`, the text itself of any other number, and in both cases
the nearest double, which is finite. -/
inductive NumText where
  | integer (neg : Bool) (digits : Nat) (double : F64)
      (nearest : double.value = signed neg (roundNat digits * F64.one))
  | other (text : String) (double : F64)

/-- `strconv.ParseFloat(text, 64)`, and what `JSON.parse` gives. -/
def NumText.double : NumText → F64
  | .integer _ _ d _ => d
  | .other _ d => d

def NumText.text : NumText → String
  | .integer neg n _ _ => (if neg then "-" else "") ++ toString n
  | .other text _ => text

/-- How `serde_json` decodes the text: an integer that fits `u64` or `i64` is kept
exactly; `-0` and everything else is a double. -/
def NumText.serde : NumText → Number
  | .integer false n d _ => if h : n < 2 ^ 64 then .posInt ⟨n, h⟩ else .float d
  | .integer true n d _ => if h : n ≠ 0 ∧ n ≤ 2 ^ 63 then .negInt ⟨n - 1, by omega⟩ else .float d
  | .other _ d => .float d

/-- Both decoders compare a number as the same double. -/
theorem NumText.asF64_serde (t : NumText) : t.serde.asF64 = t.double.value := by
  cases t with
  | other text d => rfl
  | integer neg n d nearest =>
    cases neg with
    | false =>
      simp only [serde, double]
      split
      · rw [nearest]
        rfl
      · rfl
    | true =>
      simp only [serde, double]
      split
      · rename_i h
        have hn : n - 1 + 1 = n := by omega
        rw [nearest]
        simp only [Number.asF64, signed, hn, if_true]
      · rfl

/-- Within ±2^53 the digits of an integer are its double: it was a double when it was
written. -/
def NumText.Exact : NumText → Prop
  | .integer neg n d _ => d.value.natAbs ≤ maxSafeInteger * 2 ^ 1074 → d.value = signed neg (n * F64.one)
  | .other _ _ => True

theorem natAbs_signed (neg : Bool) (n : Nat) : (signed neg (n * F64.one)).natAbs = n * 2 ^ 1074 := by
  have hone : F64.one.natAbs = 2 ^ 1074 := Int.natAbs_pow 2 1074
  cases neg <;> simp [signed, Int.natAbs_mul, hone]

theorem roundNat_le {n : Nat} (h : n ≤ maxSafeInteger) : roundNat n ≤ maxSafeInteger := by
  rcases Nat.lt_or_eq_of_le h with h | rfl
  · rw [roundNat_small h]
    exact h.le
  · decide

/-- For such a number the range of the double is the range of the digits. -/
theorem NumText.inRange_iff {t : NumText} (h : t.Exact) :
    t.serde.inRange = true ↔ t.double.value.natAbs ≤ maxSafeInteger * 2 ^ 1074 := by
  cases t with
  | other text d => exact decide_eq_true_iff
  | integer neg n d nearest =>
    have hsafe : maxSafeInteger = 9007199254740992 := rfl
    have hdouble : d.value.natAbs ≤ maxSafeInteger * 2 ^ 1074 ↔ n ≤ maxSafeInteger := by
      constructor
      · intro hle
        have hvalue := h hle
        rw [hvalue, natAbs_signed] at hle
        exact Nat.le_of_mul_le_mul_right hle (Nat.two_pow_pos _)
      · intro hle
        rw [nearest, natAbs_signed]
        exact Nat.mul_le_mul_right _ (roundNat_le hle)
    show _ ↔ d.value.natAbs ≤ maxSafeInteger * 2 ^ 1074
    cases neg with
    | false =>
      simp only [NumText.serde]
      split
      · rw [hdouble]
        exact decide_eq_true_iff
      · exact decide_eq_true_iff
    | true =>
      simp only [NumText.serde]
      split
      · rw [hdouble]
        show decide (n - 1 + 1 ≤ maxSafeInteger) = true ↔ _
        rw [decide_eq_true_iff]
        omega
      · exact decide_eq_true_iff

end Iii
