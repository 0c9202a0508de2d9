import Iii.Json.Number

/-! Arithmetic on JSON numbers: `i64` and `u64` with overflow checks, and doubles.

A double is a whole number of units of `2^-1074`, and so is the exact sum of two:
addition adds the units and rounds once. Sums of integers within ±2^53 need no
rounding, which is why a program that counts in doubles and one that counts in
`i64` agree there. -/
namespace Iii

/-! ### Machine integers -/

abbrev I64 : Type := {i : Int // -2 ^ 63 ≤ i ∧ i < 2 ^ 63}

def I64.of (i : Int) : Option I64 := if h : -2 ^ 63 ≤ i ∧ i < 2 ^ 63 then some ⟨i, h⟩ else none

def I64.checkedAdd (a b : I64) : Option I64 := I64.of (a.1 + b.1)
def I64.checkedSub (a b : I64) : Option I64 := I64.of (a.1 - b.1)
def I64.checkedNeg (a : I64) : Option I64 := I64.of (-a.1)

/-- `Number::from(i64)`. -/
def Number.ofI64 (i : I64) : Number :=
  if h : 0 ≤ i.1 then .posInt ⟨i.1.toNat, by have := i.2; omega⟩
  else .negInt ⟨(-i.1 - 1).toNat, by have := i.2; omega⟩

/-- `Number::from(u64)`, of a sum or difference that fits. -/
def Number.ofU64 (n : Int) : Option Number :=
  if h : 0 ≤ n ∧ n < 2 ^ 64 then some (.posInt ⟨n.toNat, by omega⟩) else none

def Number.asI64 : Number → Option I64
  | .posInt u => I64.of u
  | .negInt m => I64.of (-(m + 1))
  | .float _ => none

def Number.asU64 : Number → Option (Fin (2 ^ 64))
  | .posInt u => some u
  | _ => none

/-- The integer a number spells; a double spells none here. -/
def Number.toInt : Number → Int
  | .posInt u => u
  | .negInt m => -(m + 1)
  | .float _ => 0

/-- An integer within ±2^53. -/
def Number.Safe : Number → Prop
  | .posInt u => u.1 ≤ maxSafeInteger
  | .negInt m => m.1 + 1 ≤ maxSafeInteger
  | .float _ => False

theorem roundNat_safe {n : Nat} (h : n ≤ maxSafeInteger) : roundNat n = n := by
  rcases Nat.lt_or_eq_of_le h with h | rfl
  · exact roundNat_small h
  · decide

/-- A safe integer is exactly its double. -/
theorem Number.Safe.asF64 {n : Number} (h : n.Safe) : n.asF64 = n.toInt * F64.one := by
  cases n with
  | posInt u =>
    rw [Number.asF64, roundNat_safe h]
    rfl
  | negInt m =>
    rw [Number.asF64, roundNat_safe h, Number.toInt, Int.neg_mul]
    rfl
  | float f => cases h

theorem Number.Safe.natAbs_le {n : Number} (h : n.Safe) : n.toInt.natAbs ≤ 2 ^ 53 := by
  have hsafe : maxSafeInteger = 2 ^ 53 := rfl
  cases n with
  | posInt u =>
    simp only [Number.Safe, Number.toInt] at h ⊢
    omega
  | negInt m =>
    simp only [Number.Safe, Number.toInt] at h ⊢
    omega
  | float f => cases h

theorem Number.Safe.asI64 {n : Number} (h : n.Safe) : ∃ i : I64, n.asI64 = some i ∧ i.1 = n.toInt := by
  have hbound := h.natAbs_le
  have hof : ∀ i : Int, i.natAbs ≤ 2 ^ 53 → ∃ j : I64, I64.of i = some j ∧ j.1 = i := by
    intro i hi
    have hfit : -2 ^ 63 ≤ i ∧ i < 2 ^ 63 := by omega
    exact ⟨⟨i, hfit⟩, dif_pos hfit, rfl⟩
  cases n with
  | posInt u => exact hof _ hbound
  | negInt m => exact hof _ hbound
  | float f => cases h

@[simp] theorem Number.toInt_ofI64 (i : I64) : (Number.ofI64 i).toInt = i.1 := by
  unfold Number.ofI64
  split
  · simp only [Number.toInt]
    omega
  · simp only [Number.toInt]
    omega

theorem Number.safe_ofI64 (i : I64) : (Number.ofI64 i).Safe ↔ i.1.natAbs ≤ 2 ^ 53 := by
  have hsafe : maxSafeInteger = 2 ^ 53 := rfl
  unfold Number.ofI64
  split
  · simp only [Number.Safe]
    omega
  · simp only [Number.Safe]
    omega

/-! ### Doubles -/

/-- The exponent of the double nearest to `r` units, `r` being already rounded. -/
def F64.scale (r : Nat) : Nat := Nat.log2 r - 52

theorem F64.mant_lt_of_scale (r : Nat) : r / 2 ^ F64.scale r < 2 ^ 53 := by
  rw [Nat.div_lt_iff_lt_mul (Nat.two_pow_pos _), ← Nat.pow_add]
  have hlog : r < 2 ^ (Nat.log2 r + 1) := Nat.lt_log2_self
  have hle : 2 ^ (Nat.log2 r + 1) ≤ 2 ^ (53 + F64.scale r) := by
    apply Nat.pow_le_pow_right (by decide)
    unfold F64.scale
    omega
  omega

theorem F64.le_mant_of_scale {r : Nat} (h : F64.scale r ≠ 0) : 2 ^ 52 ≤ r / 2 ^ F64.scale r := by
  have hr : r ≠ 0 := by
    rintro rfl
    exact h rfl
  rw [Nat.le_div_iff_mul_le (Nat.two_pow_pos _), ← Nat.pow_add]
  have hexp : 52 + F64.scale r = Nat.log2 r := by
    unfold F64.scale at h ⊢
    omega
  rw [hexp]
  exact Nat.log2_self_le hr

/-- The double nearest to `n` units, ties to even; `none` is past the largest finite one. -/
def F64.ofUnits (neg : Bool) (n : Nat) : Option F64 :=
  let r := roundNat n
  if h : F64.scale r ≤ 2045 then
    some ⟨neg, r / 2 ^ F64.scale r, F64.scale r, F64.mant_lt_of_scale r, h, F64.le_mant_of_scale⟩
  else none

/-- `i as f64`. -/
def F64.ofInt (i : Int) : Option F64 := F64.ofUnits (i < 0) (i.natAbs * 2 ^ 1074)

/-- `as_f64()`. -/
def Number.asDouble : Number → Option F64
  | .posInt u => F64.ofInt u
  | .negInt m => F64.ofInt (-(m + 1))
  | .float f => some f

def F64.zero (neg : Bool) : F64 := ⟨neg, 0, 0, by decide, by decide, fun h => absurd rfl h⟩

def F64.negate (a : F64) : F64 := { a with neg := !a.neg }

/-- IEEE addition. A sum that is exactly zero is `-0` only for two negative zeros. -/
def F64.add (a b : F64) : Option F64 :=
  let sum := a.value + b.value
  if sum = 0 then some (F64.zero (a.neg && b.neg)) else F64.ofUnits (sum < 0) sum.natAbs

def F64.sub (a b : F64) : Option F64 := a.add b.negate

@[simp] theorem F64.value_negate (a : F64) : a.negate.value = -a.value := by
  unfold F64.negate F64.value signed
  cases a.neg <;> simp

/-! Significands of 53 bits are not rounded. -/

theorem scale_le {m k : Nat} (hm : m < 2 ^ 53) : F64.scale (m * 2 ^ k) ≤ k := by
  unfold F64.scale
  rcases Nat.eq_zero_or_pos m with rfl | hpos
  · simp
  · have hne : m * 2 ^ k ≠ 0 := Nat.mul_ne_zero hpos.ne' (Nat.two_pow_pos k).ne'
    have hlt : m * 2 ^ k < 2 ^ (53 + k) := by
      rw [Nat.pow_add]
      exact Nat.mul_lt_mul_of_pos_right hm (Nat.two_pow_pos k)
    have hlog := (Nat.log2_lt hne).mpr hlt
    omega

theorem dvd_scale {m k : Nat} (hm : m < 2 ^ 53) : 2 ^ F64.scale (m * 2 ^ k) ∣ m * 2 ^ k :=
  Dvd.dvd.mul_left (Nat.pow_dvd_pow 2 (scale_le hm)) m

theorem roundNat_exact {m k : Nat} (hm : m < 2 ^ 53) : roundNat (m * 2 ^ k) = m * 2 ^ k := by
  unfold roundNat
  split
  · rfl
  · rename_i hbig
    have hmod : m * 2 ^ k % 2 ^ (Nat.log2 (m * 2 ^ k) - 52) = 0 := Nat.mod_eq_zero_of_dvd (dvd_scale hm)
    have hhalf : 0 < 2 ^ (Nat.log2 (m * 2 ^ k) - 52 - 1) := Nat.two_pow_pos _
    simp only [hmod]
    rw [if_neg (by omega)]
    exact Nat.div_mul_cancel (dvd_scale hm)

theorem F64.ofUnits_exact {m k : Nat} (hm : m < 2 ^ 53) (hk : k ≤ 2045) (neg : Bool) :
    ∃ f, F64.ofUnits neg (m * 2 ^ k) = some f ∧ f.value = signed neg (m * 2 ^ k : Nat) := by
  have hscale : F64.scale (roundNat (m * 2 ^ k)) ≤ 2045 := by
    rw [roundNat_exact hm]
    exact (scale_le hm).trans hk
  refine ⟨_, dif_pos hscale, ?_⟩
  simp only [F64.value]
  rw [roundNat_exact hm, ← Nat.cast_ofNat (R := Int), ← Nat.cast_pow, ← Nat.cast_mul,
    Nat.div_mul_cancel (dvd_scale hm)]

/-- So is a power of two one past them. -/
theorem F64.ofUnits_le {m k : Nat} (hm : m ≤ 2 ^ 53) (hk : k + 1 ≤ 2045) (neg : Bool) :
    ∃ f, F64.ofUnits neg (m * 2 ^ k) = some f ∧ f.value = signed neg (m * 2 ^ k : Nat) := by
  rcases Nat.lt_or_eq_of_le hm with hm | rfl
  · exact F64.ofUnits_exact hm (by omega) neg
  · have hsplit : 2 ^ 53 * 2 ^ k = 2 ^ 52 * 2 ^ (k + 1) := by
      rw [← Nat.pow_add, ← Nat.pow_add]
      congr 1
      omega
    rw [hsplit]
    exact F64.ofUnits_exact (by decide) hk neg

/-! Rounding in general: the result has 53 bits, and scaling by a power of two commutes. -/

theorem roundNat_form (n : Nat) : ∃ m k, m ≤ 2 ^ 53 ∧ roundNat n = m * 2 ^ k := by
  unfold roundNat
  split
  · exact ⟨n, 0, by omega, by simp⟩
  · have hq : n / 2 ^ (Nat.log2 n - 52) < 2 ^ 53 := F64.mant_lt_of_scale n
    refine ⟨_, Nat.log2 n - 52, ?_, rfl⟩
    split <;> omega

theorem dvd_scale_roundNat (n : Nat) : 2 ^ F64.scale (roundNat n) ∣ roundNat n := by
  obtain ⟨m, k, hm, hform⟩ := roundNat_form n
  rw [hform]
  rcases Nat.lt_or_eq_of_le hm with hm | rfl
  · exact dvd_scale hm
  · have hsplit : 2 ^ 53 * 2 ^ k = 2 ^ 52 * 2 ^ (k + 1) := by
      rw [← Nat.pow_add, ← Nat.pow_add]
      congr 1
      omega
    rw [hsplit]
    exact dvd_scale (by decide)

theorem log2_mul_pow {n : Nat} (hn : n ≠ 0) (k : Nat) : Nat.log2 (n * 2 ^ k) = Nat.log2 n + k := by
  have hpos := Nat.two_pow_pos k
  rw [Nat.log2_eq_iff (Nat.mul_ne_zero hn hpos.ne')]
  constructor
  · rw [Nat.pow_add]
    exact Nat.mul_le_mul_right _ (Nat.log2_self_le hn)
  · rw [Nat.add_right_comm, Nat.pow_add]
    exact Nat.mul_lt_mul_of_pos_right Nat.lt_log2_self hpos

theorem roundNat_mul_pow (n k : Nat) : roundNat (n * 2 ^ k) = roundNat n * 2 ^ k := by
  by_cases hsmall : n < 2 ^ 53
  · rw [roundNat_exact hsmall, roundNat_small hsmall]
  · have hn : n ≠ 0 := by
      rintro rfl
      exact hsmall (Nat.two_pow_pos 53)
    have hlog : 53 ≤ Nat.log2 n := (Nat.le_log2 hn).mpr (by omega)
    have hpos := Nat.two_pow_pos k
    have hbig : ¬ n * 2 ^ k < 2 ^ 53 := by
      have := Nat.le_mul_of_pos_right n hpos
      omega
    have hexp : Nat.log2 (n * 2 ^ k) - 52 = Nat.log2 n - 52 + k := by
      rw [log2_mul_pow hn]
      omega
    have hhalf : 2 ^ (Nat.log2 n - 52 + k - 1) = 2 ^ (Nat.log2 n - 52 - 1) * 2 ^ k := by
      rw [← Nat.pow_add]
      congr 1
      omega
    unfold roundNat
    rw [if_neg hsmall, if_neg hbig]
    simp only [hexp, hhalf, Nat.pow_add, Nat.mul_div_mul_right _ _ hpos, Nat.mul_mod_mul_right,
      Nat.mul_lt_mul_right hpos, Nat.mul_right_cancel_iff hpos]
    rw [Nat.mul_assoc]

theorem roundNat_lt {n : Nat} (h : n ≤ 2 ^ 64) : roundNat n < 2 ^ 66 := by
  by_cases hsmall : n < 2 ^ 53
  · rw [roundNat_small hsmall]
    omega
  · unfold roundNat
    rw [if_neg hsmall]
    have hdiv := Nat.div_mul_le_self n (2 ^ (Nat.log2 n - 52))
    have hpow : 2 ^ (Nat.log2 n - 52) ≤ n :=
      (Nat.pow_le_pow_right (by decide) (Nat.sub_le ..)).trans (Nat.log2_self_le (by omega))
    simp only
    split
    · rw [Nat.add_mul]
      omega
    · omega

theorem F64.ofUnits_mul_pow {n k : Nat} (hn : roundNat n < 2 ^ 66) (hk : k ≤ 1074) (neg : Bool) :
    ∃ f, F64.ofUnits neg (n * 2 ^ k) = some f ∧ f.value = signed neg (roundNat n * 2 ^ k) := by
  have hscale : F64.scale (roundNat (n * 2 ^ k)) ≤ 2045 := by
    rw [roundNat_mul_pow]
    unfold F64.scale
    rcases Nat.eq_zero_or_pos (roundNat n) with hzero | hpos
    · rw [hzero, Nat.zero_mul]
      decide
    · rw [log2_mul_pow hpos.ne']
      have := (Nat.log2_lt hpos.ne').mpr hn
      omega
  refine ⟨_, dif_pos hscale, ?_⟩
  simp only [F64.value]
  rw [← Nat.cast_ofNat (R := Int), ← Nat.cast_pow, ← Nat.cast_mul,
    Nat.div_mul_cancel (dvd_scale_roundNat _), roundNat_mul_pow, Nat.cast_mul, Nat.cast_pow]

/-- `as f64` of an integer of 64 bits is the double it compares by. -/
theorem F64.ofInt_value {i : Int} (h : i.natAbs ≤ 2 ^ 64) :
    ∃ f, F64.ofInt i = some f ∧ f.value = signed (i < 0) (roundNat i.natAbs * F64.one) :=
  F64.ofUnits_mul_pow (roundNat_lt h) le_rfl _

/-- `as_f64()` is the double a number compares by. -/
theorem Number.asDouble_value (n : Number) : ∃ f, n.asDouble = some f ∧ f.value = n.asF64 := by
  cases n with
  | posInt u =>
    obtain ⟨f, hf, hvalue⟩ := F64.ofInt_value (i := u) (by have := u.2; omega)
    refine ⟨f, hf, ?_⟩
    rw [hvalue]
    simp [signed, Number.asF64]
  | negInt m =>
    obtain ⟨f, hf, hvalue⟩ := F64.ofInt_value (i := -(m + 1)) (by have := m.2; omega)
    have hneg : decide (-((m : Nat) + 1 : Int) < 0) = true := by
      rw [decide_eq_true_iff]
      omega
    have habs : (-((m : Nat) + 1 : Int)).natAbs = m + 1 := by omega
    refine ⟨f, hf, ?_⟩
    rw [hvalue, habs, hneg, Number.asF64, signed, if_pos rfl]
  | float f => exact ⟨f, rfl, rfl⟩

theorem signed_natAbs (i : Int) : signed (i < 0) i.natAbs = i := by
  by_cases h : i < 0 <;> simp only [signed, h, decide_true, decide_false, if_true]
  · omega
  · simp only [Bool.false_eq_true, if_false]
    omega

/-- The double of a whole number of units, when that number needs 53 bits at most. -/
theorem F64.ofUnits_units {i : Int} {k : Nat} (hi : i.natAbs ≤ 2 ^ 53) (hk : k + 1 ≤ 2045) :
    ∃ f, F64.ofUnits (i * 2 ^ k < 0) (i * 2 ^ k).natAbs = some f ∧ f.value = i * 2 ^ k := by
  have hpow : (2 ^ k : Int).natAbs = 2 ^ k := Int.natAbs_pow 2 k
  obtain ⟨f, hf, hvalue⟩ := F64.ofUnits_le hi hk (decide (i * 2 ^ k < 0))
  rw [Int.natAbs_mul, hpow]
  refine ⟨f, hf, ?_⟩
  rw [hvalue, ← hpow, ← Int.natAbs_mul, signed_natAbs]

/-- The sum of two safe integers is exact while it is safe. -/
theorem F64.add_safe {a b : F64} {x y : Int} (ha : a.value = x * F64.one) (hb : b.value = y * F64.one)
    (h : (x + y).natAbs ≤ 2 ^ 53) : ∃ f, a.add b = some f ∧ f.value = (x + y) * F64.one := by
  have hsum : a.value + b.value = (x + y) * F64.one := by rw [ha, hb, Int.add_mul]
  unfold F64.add
  simp only [hsum]
  split
  · rename_i hzero
    refine ⟨_, rfl, ?_⟩
    rw [hzero]
    unfold F64.value F64.zero signed
    simp
  · exact F64.ofUnits_units h (by decide)

theorem F64.sub_safe {a b : F64} {x y : Int} (ha : a.value = x * F64.one) (hb : b.value = y * F64.one)
    (h : (x - y).natAbs ≤ 2 ^ 53) : ∃ f, a.sub b = some f ∧ f.value = (x - y) * F64.one := by
  have hneg : b.negate.value = -y * F64.one := by rw [F64.value_negate, hb, Int.neg_mul]
  exact F64.add_safe ha hneg h

end Iii
