import Iii.Update.Fold

/-! Counting.

`serde_json` keeps an integer as an `i64` or a `u64`, whichever holds it, so a counter moves between the two as it is
counted up and down. Together they spell every integer from -2^63 to 2^64 - 1 once (`Number.Spells`), and an `increment`
or a `decrement` by any `i64` is exact inside that range and refused outside it (`Adds`).

The amount belongs to the operation: a decrement by `i64::MIN` adds 2^63, which no `i64` holds, and on a missing field
that is what the counter starts at. `counters_exact` follows one path through any list of counting operations. The
path must be one the operations accept: a `__proto__` is never counted, whatever stands there. -/
namespace Iii

/-! ### Integers in JSON -/

/-- What an `i64` or a `u64` holds. -/
def InRange (n : Int) : Prop := -2 ^ 63 ≤ n ∧ n < 2 ^ 64

instance (n : Int) : Decidable (InRange n) := inferInstanceAs (Decidable (_ ∧ _))

namespace Number

/-- The number is the integer `n`. -/
def Spells : Number → Int → Prop
  | .posInt u, n => (u : Int) = n
  | .negInt m, n => -((m : Int) + 1) = n
  | .float _, _ => False

theorem Spells.inRange {num : Number} {n : Int} (h : num.Spells n) : InRange n := by
  cases num with
  | posInt u =>
    have hu : (u : Int) = n := h
    have hlt := u.2
    exact ⟨by omega, by omega⟩
  | negInt m =>
    have hm : -((m : Int) + 1) = n := h
    have hlt := m.2
    exact ⟨by omega, by omega⟩
  | float f => cases h

/-- An integer has one spelling. -/
theorem Spells.unique {num num' : Number} {n : Int} (h : num.Spells n) (h' : num'.Spells n) : num = num' := by
  cases num with
  | posInt u =>
    have hu : (u : Int) = n := h
    cases num' with
    | posInt u' =>
      have hu' : (u' : Int) = n := h'
      congr 1
      omega
    | negInt m' =>
      have hm' : -((m' : Int) + 1) = n := h'
      omega
    | float f => cases h'
  | negInt m =>
    have hm : -((m : Int) + 1) = n := h
    cases num' with
    | posInt u' =>
      have hu' : (u' : Int) = n := h'
      omega
    | negInt m' =>
      have hm' : -((m' : Int) + 1) = n := h'
      congr 1
      omega
    | float f => cases h'
  | float f => cases h

theorem spells_ofI64 (i : I64) : (ofI64 i).Spells i.1 := by
  unfold ofI64
  split
  · exact Int.toNat_of_nonneg ‹_›
  · simp only [Spells]
    omega

theorem spells_ofU64 {n : Int} (h : 0 ≤ n ∧ n < 2 ^ 64) : ∃ num, ofU64 n = some num ∧ num.Spells n :=
  ⟨_, dif_pos h, Int.toNat_of_nonneg h.1⟩

end Number
end Iii

namespace Iii.Update
open Lib

/-! ### One number -/

/-- The numeric operation adds `delta` of its amount: exactly, or not at all. -/
structure Adds (op : Numeric) (delta : I64 → Int) : Prop where
  fits : ∀ {num : Number} {n : Int} {by_ : I64}, num.Spells n → InRange (n + delta by_) →
    ∃ num', op.update (.number num) by_ = some (.number num') ∧ num'.Spells (n + delta by_)
  refuses : ∀ {num : Number} {n : Int} {by_ : I64}, num.Spells n → ¬ InRange (n + delta by_) →
    op.update (.number num) by_ = none
  starts : ∀ by_ : I64, ∃ num', op.missing by_ = .number num' ∧ num'.Spells (delta by_)

section Add
variable {num : Number} {n d : Int} {double : F64 → F64 → Option F64} {amount : Int}

/-- The attempt in `i64`, then the one in `u64`: both operations are this, for the amount they add. -/
def addInteger (num : Number) (d : Int) (double : F64 → F64 → Option F64) (amount : Int) : Option Value :=
  match num.asI64.bind fun i => I64.of (i.1 + d) with
  | some sum => some (.number (.ofI64 sum))
  | none => addBeyondI64 num d double amount

theorem of_eq_some {i : Int} (h : -2 ^ 63 ≤ i ∧ i < 2 ^ 63) : I64.of i = some ⟨i, h⟩ := dif_pos h

theorem of_eq_none {i : Int} (h : ¬ (-2 ^ 63 ≤ i ∧ i < 2 ^ 63)) : I64.of i = none := dif_neg h

theorem asI64_of_spells (h : num.Spells n) : num.asI64 = I64.of n := by
  cases num with
  | posInt u => exact congrArg I64.of h
  | negInt m => exact congrArg I64.of h
  | float f => cases h

/-- Both the number and the sum are `i64`s. -/
theorem addInteger_small (h : num.Spells n) (hn : -2 ^ 63 ≤ n ∧ n < 2 ^ 63)
    (hsum : -2 ^ 63 ≤ n + d ∧ n + d < 2 ^ 63) :
    addInteger num d double amount = some (.number (.ofI64 ⟨n + d, hsum⟩)) := by
  rw [addInteger, asI64_of_spells h, of_eq_some hn, Option.bind_some, of_eq_some hsum]

/-- One of them is not. -/
theorem addInteger_large (h : num.Spells n) (hn : ¬ ((-2 ^ 63 ≤ n ∧ n < 2 ^ 63) ∧ -2 ^ 63 ≤ n + d ∧ n + d < 2 ^ 63)) :
    addInteger num d double amount = addBeyondI64 num d double amount := by
  rw [addInteger, asI64_of_spells h]
  by_cases hsmall : -2 ^ 63 ≤ n ∧ n < 2 ^ 63
  · rw [of_eq_some hsmall, Option.bind_some, of_eq_none fun hsum => hn ⟨hsmall, hsum⟩]
  · rw [of_eq_none hsmall, Option.bind_none]

theorem addBeyondI64_posInt {u : Fin (2 ^ 64)} (h : (Number.posInt u).Spells n) :
    addBeyondI64 (.posInt u) d double amount = (Number.ofU64 (n + d)).map .number := by
  have hu : (u : Int) = n := h
  rw [addBeyondI64, hu]

theorem addInteger_fits (h : num.Spells n) (hd : -2 ^ 63 ≤ d ∧ d ≤ 2 ^ 63) (hn : InRange (n + d)) :
    ∃ num', addInteger num d double amount = some (.number num') ∧ num'.Spells (n + d) := by
  obtain ⟨hlow, hhigh⟩ := hn
  by_cases hsmall : (-2 ^ 63 ≤ n ∧ n < 2 ^ 63) ∧ -2 ^ 63 ≤ n + d ∧ n + d < 2 ^ 63
  · exact ⟨_, addInteger_small h hsmall.1 hsmall.2, Number.spells_ofI64 _⟩
  · rw [addInteger_large h hsmall]
    have hrange := h.inRange
    unfold InRange at hrange
    cases num with
    | posInt u =>
      have hu : (u : Int) = n := h
      obtain ⟨num', hnum', hspells⟩ := Number.spells_ofU64 (n := n + d) ⟨by omega, hhigh⟩
      exact ⟨num', by rw [addBeyondI64_posInt h, hnum', Option.map_some], hspells⟩
    | negInt m =>
      -- below zero the sum can leave `i64` only downwards
      have hm : -((m : Int) + 1) = n := h
      omega
    | float f => cases h

theorem addInteger_refuses (h : num.Spells n) (hn : ¬ InRange (n + d)) : addInteger num d double amount = none := by
  have hout : ¬ (-2 ^ 63 ≤ n + d ∧ n + d < 2 ^ 64) := hn
  rw [addInteger_large h (by omega)]
  cases num with
  | posInt u =>
    have hu : (u : Int) = n := h
    rw [addBeyondI64_posInt h, Number.ofU64]
    -- from zero up no amount leads below -2^63
    split
    · omega
    · rfl
  | negInt m => rfl
  | float f => cases h

end Add

theorem I64.amount (by_ : I64) : (-2 ^ 63 ≤ by_.1 ∧ by_.1 ≤ 2 ^ 63) ∧ -2 ^ 63 ≤ -by_.1 ∧ -by_.1 ≤ 2 ^ 63 := by
  have h := by_.2
  omega

theorem increment_eq (num : Number) (by_ : I64) :
    Numeric.increment.update (.number num) by_ = addInteger num by_.1 F64.add by_.1 := rfl

theorem decrement_eq (num : Number) (by_ : I64) :
    Numeric.decrement.update (.number num) by_ = addInteger num (-by_.1) F64.sub by_.1 := rfl

theorem increment_adds : Adds .increment fun by_ => by_.1 where
  fits := fun {num n by_} h hn => by
    rw [increment_eq]
    exact addInteger_fits h (I64.amount by_).1 hn
  refuses := fun {num n by_} h hn => by
    rw [increment_eq]
    exact addInteger_refuses h hn
  starts := fun by_ => ⟨_, rfl, Number.spells_ofI64 by_⟩

/-- A missing field counts down from zero; -(-2^63) is the one start that needs the `u64`. -/
theorem decrement_adds : Adds .decrement fun by_ => -by_.1 where
  fits := fun {num n by_} h hn => by
    rw [decrement_eq]
    exact addInteger_fits h (I64.amount by_).2 hn
  refuses := fun {num n by_} h hn => by
    rw [decrement_eq]
    exact addInteger_refuses h hn
  starts := fun by_ => by
    have hby := by_.2
    by_cases hmin : by_.1 = -2 ^ 63
    · refine ⟨.posInt ⟨2 ^ 63, by decide⟩, ?_, ?_⟩
      · have hneg : by_.checkedNeg = none := of_eq_none (by omega)
        simp only [Numeric.decrement, missingDecrementValue, hneg]
      · rw [hmin]
        rfl
    · have hneg : by_.checkedNeg = some ⟨-by_.1, by omega, by omega⟩ := of_eq_some ⟨by omega, by omega⟩
      refine ⟨.ofI64 ⟨-by_.1, by omega, by omega⟩, ?_, Number.spells_ofI64 _⟩
      simp only [Numeric.decrement, missingDecrementValue, hneg]

/-! ### One operation on a counter -/

inductive Count where
  | up (by_ : I64)
  | down (by_ : I64)

def Count.op (path : String) : Count → UpdateOp
  | .up by_ => .increment path by_
  | .down by_ => .decrement path by_

/-- What it adds. -/
def Count.delta : Count → Int
  | .up by_ => by_.1
  | .down by_ => -by_.1

def total (counts : List Count) : Int := (counts.map Count.delta).sum

/-- A path the operations accept. -/
def Countable (path : String) : Prop := path.utf8ByteSize ≤ maxSegmentBytes ∧ path ∉ protoPollutionKeys

/-- The integer `n` stands at the path, or nothing does and `n` is zero. -/
inductive Counts (path : String) : Option Value → Int → Prop where
  | absent : Counts path none 0
  | missing {map : Members} (hpath : path ≠ "") (hget : Assoc.get? map path = none) :
      Counts path (some (.object map)) 0
  | root {num : Number} {n : Int} (hpath : path = "") (hnum : num.Spells n) : Counts path (some (.number num)) n
  | field {map : Members} {num : Number} {n : Int} (hpath : path ≠ "")
      (hget : Assoc.get? map path = some (.number num)) (hnum : num.Spells n) : Counts path (some (.object map)) n

/-- What has been written of the value. -/
def State.value (s : State) : Option Value := if s.usingMissingDefault then none else some s.current

/-- A counter stands in the state; a field that nobody has written is still `{}`. -/
structure Stands (path : String) (s : State) (n : Int) : Prop where
  counts : Counts path s.value n
  fresh : s.usingMissingDefault = true → s.current = .object []

def setAt (path : String) (current v : Value) : Value :=
  if path = "" then v
  else
    match current with
    | .object map => .object (Assoc.insert map path v)
    | other => other

variable {path : String} {n : Int}

theorem setAt_root (h : path = "") (current v : Value) : setAt path current v = v := if_pos h

theorem setAt_field (h : path ≠ "") (map : Members) (v : Value) :
    setAt path (.object map) v = .object (Assoc.insert map path v) := if_neg h

section Step
variable {path : String} {s : State} {n : Int}

theorem validate_countable (hpath : Countable path) (opName : String) (i : Nat) :
    validateOpPath opName i (fieldPathSegments path) = none := by
  unfold fieldPathSegments
  by_cases hempty : path = ""
  · rw [if_pos hempty]
    rfl
  · have hsegment : validateSegment opName i path = none := by
      rw [validateSegment, if_neg hempty, if_neg (by exact Nat.not_lt.mpr hpath.1), if_neg (by simpa using hpath.2)]
    simp [validateOpPath, hempty, hsegment, maxPathDepth]

/-- A counter in range is written, with what it adds added. -/
theorem applyNumeric_fits {op : Numeric} {delta : I64 → Int} (hop : Adds op delta) (hpath : Countable path)
    (h : Stands path s n) (i : Nat) {by_ : I64} (hn : InRange (n + delta by_)) :
    ∃ num, applyNumeric op i path by_ s = s.write (setAt path s.current (.number num)) ∧
      num.Spells (n + delta by_) := by
  obtain ⟨counts, fresh⟩ := h
  obtain ⟨start, hstart, hspells⟩ := hop.starts by_
  unfold applyNumeric
  rw [validate_countable hpath]
  unfold State.value at counts
  by_cases hmissing : s.usingMissingDefault = true
  · rw [if_pos hmissing] at counts
    cases counts
    refine ⟨start, ?_, by rwa [Int.zero_add]⟩
    by_cases hroot : path = ""
    · simp [hroot, hmissing, hstart, setAt]
    · simp [hroot, fresh hmissing, hstart, setAt]
  · rw [if_neg hmissing] at counts
    generalize hv : s.current = v at counts
    cases counts with
    | missing hne hget => exact ⟨start, by simp [hne, hget, hstart, setAt], by rwa [Int.zero_add]⟩
    | root hroot hnum =>
      obtain ⟨num', hupdate, hspells'⟩ := hop.fits hnum hn
      exact ⟨num', by simp [hroot, hmissing, hupdate, setAt], hspells'⟩
    | field hne hget hnum =>
      obtain ⟨num', hupdate, hspells'⟩ := hop.fits hnum hn
      exact ⟨num', by simp [hne, hget, hupdate, setAt], hspells'⟩

/-- Out of range it is left, with an error. -/
theorem applyNumeric_refuses {op : Numeric} {delta : I64 → Int} (hop : Adds op delta) (hpath : Countable path)
    (h : Stands path s n) (i : Nat) {by_ : I64} (hn : ¬ InRange (n + delta by_)) :
    ∃ target, applyNumeric op i path by_ s = s.push [op.notNumber i path target] := by
  obtain ⟨counts, fresh⟩ := h
  obtain ⟨start, hstart, hspells⟩ := hop.starts by_
  unfold applyNumeric
  rw [validate_countable hpath]
  unfold State.value at counts
  by_cases hmissing : s.usingMissingDefault = true
  · rw [if_pos hmissing] at counts
    cases counts
    rw [Int.zero_add] at hn
    exact absurd hspells.inRange hn
  · rw [if_neg hmissing] at counts
    generalize hv : s.current = v at counts
    cases counts with
    | missing hne hget =>
      rw [Int.zero_add] at hn
      exact absurd hspells.inRange hn
    | root hroot hnum => exact ⟨_, by simp [hroot, hmissing, hop.refuses hnum hn]; rfl⟩
    | field hne hget hnum => exact ⟨_, by simp [hne, hget, hop.refuses hnum hn]; rfl⟩

/-- What is written there stands there. -/
theorem stands_write (h : Stands path s n) {num : Number} {n' : Int} (hnum : num.Spells n') :
    Stands path (s.write (setAt path s.current (.number num))) n' := by
  refine ⟨?_, fun hmissing => by cases hmissing⟩
  have hvalue : (s.write (setAt path s.current (.number num))).value = some (setAt path s.current (.number num)) := rfl
  rw [hvalue]
  by_cases hroot : path = ""
  · rw [setAt_root hroot]
    exact .root hroot hnum
  · have hobject : ∃ map, s.current = .object map := by
      obtain ⟨counts, fresh⟩ := h
      unfold State.value at counts
      by_cases hmissing : s.usingMissingDefault = true
      · exact ⟨[], fresh hmissing⟩
      · rw [if_neg hmissing] at counts
        generalize s.current = v at counts
        cases counts with
        | missing hne hget => exact ⟨_, rfl⟩
        | root hempty hnum => exact absurd hempty hroot
        | field hne hget hnum => exact ⟨_, rfl⟩
    obtain ⟨map, hmap⟩ := hobject
    rw [hmap, setAt_field hroot]
    exact .field hroot (by rw [Assoc.get?_insert, if_pos rfl]) hnum

/-- One counting operation: it adds its amount if the sum is in range, and is refused otherwise. -/
theorem count_step (hpath : Countable path) (h : Stands path s n) (i : Nat) (c : Count) :
    (InRange (n + c.delta) → ∃ num, applyOp i (c.op path) s = s.write (setAt path s.current (.number num)) ∧
      num.Spells (n + c.delta)) ∧
    (¬ InRange (n + c.delta) → ∃ e, e.opIndex = i ∧ applyOp i (c.op path) s = s.push [e]) := by
  cases c with
  | up by_ =>
    refine ⟨applyNumeric_fits increment_adds hpath h i, fun hn => ?_⟩
    obtain ⟨target, herr⟩ := applyNumeric_refuses increment_adds hpath h i hn
    exact ⟨_, rfl, herr⟩
  | down by_ =>
    refine ⟨applyNumeric_fits decrement_adds hpath h i, fun hn => ?_⟩
    obtain ⟨target, herr⟩ := applyNumeric_refuses decrement_adds hpath h i hn
    exact ⟨_, rfl, herr⟩

end Step

/-! ### A list of operations -/

/-- What a counter comes to when every amount that would leave the range is skipped. -/
def tally : Int → List Count → Int
  | n, [] => n
  | n, c :: rest => if InRange (n + c.delta) then tally (n + c.delta) rest else tally n rest

theorem tally_total {counts : List Count} (h : ∀ k ≤ counts.length, InRange (n + total (counts.take k))) :
    tally n counts = n + total counts := by
  induction counts generalizing n with
  | nil => simp [tally, total]
  | cons c rest ih =>
    have hfirst : InRange (n + c.delta) := by simpa [total] using h 1 (by simp)
    have hrest : ∀ k ≤ rest.length, InRange (n + c.delta + total (rest.take k)) := by
      intro k hk
      have hk' := h (k + 1) (by simpa using hk)
      simpa [total, Int.add_assoc] using hk'
    rw [tally, if_pos hfirst, ih hrest]
    simp [total, Int.add_assoc]

section Run
variable {path : String} {s : State} {n : Int}

/-- After any list of counting operations the exact tally stands at the path. -/
theorem stands_applyOps (hpath : Countable path) (h : Stands path s n) (i : Nat) (counts : List Count) :
    Stands path (applyOps i (counts.map (Count.op path)) s) (tally n counts) := by
  induction counts generalizing i s n with
  | nil => exact h
  | cons c rest ih =>
    obtain ⟨hfits, hrefuses⟩ := count_step hpath h i c
    rw [List.map_cons, applyOps, tally]
    split
    · rename_i hn
      obtain ⟨num, happly, hnum⟩ := hfits hn
      rw [happly]
      exact ih (stands_write h hnum) (i + 1)
    · rename_i hn
      obtain ⟨e, -, happly⟩ := hrefuses hn
      rw [happly]
      exact ih (s := s.push [e]) ⟨h.counts, h.fresh⟩ (i + 1)

/-- Within the range no operation fails. -/
theorem no_errors (hpath : Countable path) (h : Stands path s n) (i : Nat) {counts : List Count}
    (hrange : ∀ k ≤ counts.length, InRange (n + total (counts.take k))) :
    (applyOps i (counts.map (Count.op path)) s).errors = s.errors := by
  induction counts generalizing i s n with
  | nil => rfl
  | cons c rest ih =>
    have hfirst : InRange (n + c.delta) := by simpa [total] using hrange 1 (by simp)
    have hrest : ∀ k ≤ rest.length, InRange (n + c.delta + total (rest.take k)) := by
      intro k hk
      have hk' := hrange (k + 1) (by simpa using hk)
      simpa [total, Int.add_assoc] using hk'
    obtain ⟨num, happly, hnum⟩ := (count_step hpath h i c).1 hfirst
    rw [List.map_cons, applyOps, happly, ih (stands_write h hnum) (i + 1) hrest]
    rfl

end Run

theorem stands_start {oldValue : Option Value} (h : Counts path oldValue n) :
    Stands path (.start oldValue) n := by
  cases oldValue with
  | none => exact ⟨h, fun _ => rfl⟩
  | some v => exact ⟨h, fun hmissing => by cases hmissing⟩

/-- Once something is written, what stands in the state is what its value shows. -/
theorem counts_of_stands {s : State} (h : Stands path s n) (hwritten : s.usingMissingDefault = false) :
    Counts path (some s.current) n := by
  have hcounts := h.counts
  rwa [State.value, hwritten, if_neg (by decide)] at hcounts

/-- Setting a counter twice, back to the number it was, changes nothing. -/
theorem setAt_back {v : Value} (h : Counts path (some v) n) {num num' : Number}
    (hthere : path ≠ "" → ∀ map, v = .object map → Assoc.get? map path ≠ none) (hnum : num'.Spells n) :
    setAt path (setAt path v (.number num)) (.number num') = v := by
  cases h with
  | missing hne hget => exact absurd hget (hthere hne _ rfl)
  | root hroot hspells => rw [setAt_root hroot, hspells.unique hnum]
  | field hne hget hspells =>
    rw [hspells.unique hnum] at hget
    rw [setAt_field hne, setAt_field hne, Assoc.insert_insert, insert_eq_self hget]

/-! ### Counters -/

/-- The first counting operation writes the field, if nothing has. -/
theorem written_applyOp {s : State} (hpath : Countable path) (h : Stands path s n) (i : Nat) (c : Count) :
    (applyOp i (c.op path) s).usingMissingDefault = false := by
  obtain ⟨hfits, hrefuses⟩ := count_step hpath h i c
  by_cases hn : InRange (n + c.delta)
  · obtain ⟨num, happly, -⟩ := hfits hn
    rw [happly]
    rfl
  · obtain ⟨e, -, happly⟩ := hrefuses hn
    rw [happly]
    cases hmissing : s.usingMissingDefault with
    | false => exact hmissing
    | true =>
      -- from nothing every amount is in range
      have hcounts := h.counts
      rw [State.value, hmissing, if_pos rfl] at hcounts
      cases hcounts
      have hamount : ∀ by_ : I64, InRange by_.1 ∧ InRange (-by_.1) := by
        intro by_
        have hby := by_.2
        exact ⟨⟨by omega, by omega⟩, by omega, by omega⟩
      rw [Int.zero_add] at hn
      cases c with
      | up by_ => exact absurd (hamount by_).1 hn
      | down by_ => exact absurd (hamount by_).2 hn

theorem counts_applyUpdateOps (hpath : Countable path) {oldValue : Option Value} (h : Counts path oldValue n)
    (counts : List Count) :
    counts = [] ∧ oldValue = none ∨
      Counts path (some (applyUpdateOps oldValue (counts.map (Count.op path))).1) (tally n counts) := by
  have hstands := stands_applyOps hpath (stands_start h) 0 counts
  cases counts with
  | nil =>
    cases oldValue with
    | none => exact .inl ⟨rfl, rfl⟩
    | some v => exact .inr h
  | cons c rest =>
    refine .inr (counts_of_stands hstands ?_)
    rw [List.map_cons, applyOps]
    exact applyOps_settled _ _ _ (written_applyOp hpath (stands_start h) 0 c)

/-- **Counters are exact.** While every partial sum is in range, nothing fails and the sum stands at the path. An
operation whose exact result is out of range is reported under its index and leaves the value as it is. And a decrement
takes back the increment before it, to the value that stood there if one did. -/
theorem counters_exact (path : String) (hpath : Countable path) :
    (∀ (oldValue : Option Value) (n : Int) (counts : List Count), Counts path oldValue n →
      (∀ k ≤ counts.length, InRange (n + total (counts.take k))) →
      (applyUpdateOps oldValue (counts.map (Count.op path))).2 = [] ∧
        (counts = [] ∧ oldValue = none ∨
          Counts path (some (applyUpdateOps oldValue (counts.map (Count.op path))).1) (n + total counts))) ∧
    (∀ (oldValue : Option Value) (n : Int) (counts : List Count) (c : Count), Counts path oldValue n →
      let before := applyUpdateOps oldValue (counts.map (Count.op path))
      let after := applyUpdateOps oldValue ((counts ++ [c]).map (Count.op path))
      (counts = [] ∧ oldValue = none ∨ Counts path (some before.1) (tally n counts)) ∧
      (InRange (tally n counts + c.delta) →
        after.2 = before.2 ∧ Counts path (some after.1) (tally n counts + c.delta)) ∧
      (¬ InRange (tally n counts + c.delta) →
        after.1 = before.1 ∧ ∃ e, e.opIndex = counts.length ∧ after.2 = before.2 ++ [e])) ∧
    ∀ (oldValue : Option Value) (n : Int) (by_ : I64), Counts path oldValue n → InRange (n + by_.1) →
      let r := applyUpdateOps oldValue [.increment path by_, .decrement path by_]
      r.2 = [] ∧ Counts path (some r.1) n ∧
        ∀ v, oldValue = some v → (path ≠ "" → ∀ map, v = .object map → Assoc.get? map path ≠ none) → r.1 = v := by
  refine ⟨?_, ?_, ?_⟩
  · intro oldValue n counts h hrange
    refine ⟨no_errors hpath (stands_start h) 0 hrange, ?_⟩
    rw [← tally_total hrange]
    exact counts_applyUpdateOps hpath h counts
  · intro oldValue n counts c h
    have hsnoc : applyOps 0 ((counts ++ [c]).map (Count.op path)) (.start oldValue) =
        applyOp counts.length (c.op path) (applyOps 0 (counts.map (Count.op path)) (.start oldValue)) := by
      rw [List.map_append, applyOps_append, List.length_map, Nat.zero_add]
      rfl
    have hstands := stands_applyOps hpath (stands_start h) 0 counts
    obtain ⟨hfits, hrefuses⟩ := count_step hpath hstands counts.length c
    refine ⟨counts_applyUpdateOps hpath h counts, fun hn => ?_, fun hn => ?_⟩
    · obtain ⟨num, happly, hnum⟩ := hfits hn
      simp only [applyUpdateOps, hsnoc, happly]
      exact ⟨rfl, counts_of_stands (stands_write hstands hnum) rfl⟩
    · obtain ⟨e, hindex, happly⟩ := hrefuses hn
      simp only [applyUpdateOps, hsnoc, happly]
      exact ⟨rfl, e, hindex, rfl⟩
  · intro oldValue n by_ h hn
    obtain ⟨num, hup, hnum⟩ := (count_step hpath (stands_start h) 0 (.up by_)).1 hn
    have hback : n + by_.1 + (Count.down by_).delta = n := Int.add_neg_cancel_right n by_.1
    obtain ⟨num', hdown, hnum'⟩ := (count_step hpath (stands_write (stands_start h) hnum) 1 (.down by_)).1 (by
      rw [show n + (Count.up by_).delta = n + by_.1 from rfl, hback]
      cases h with
      | absent => decide
      | missing _ _ => decide
      | root _ hspells => exact hspells.inRange
      | field _ _ hspells => exact hspells.inRange)
    rw [show n + (Count.up by_).delta = n + by_.1 from rfl, hback] at hnum'
    have hrun : applyOps 0 [.increment path by_, .decrement path by_] (.start oldValue) =
        ((State.start oldValue).write (setAt path (State.start oldValue).current (.number num))).write
          (setAt path (setAt path (State.start oldValue).current (.number num)) (.number num')) := by
      rw [applyOps, applyOps, applyOps]
      change applyOp 1 ((Count.down by_).op path) (applyOp 0 ((Count.up by_).op path) _) = _
      rw [hup, hdown]
      rfl
    simp only [applyUpdateOps, hrun]
    refine ⟨rfl, counts_of_stands (stands_write (stands_write (stands_start h) hnum) hnum') rfl, ?_⟩
    intro v hv hthere
    subst hv
    exact setAt_back h hthere hnum'

/-- A counter at `i64::MAX` counted up into `u64` and back. -/
theorem counters_exact_max :
    let one : I64 := ⟨1, by decide⟩
    let old : Value := .object [("n", .number (.posInt ⟨2 ^ 63 - 1, by decide⟩))]
    applyUpdateOps (some old) [.increment "n" one, .decrement "n" one] = (old, []) := by
  have h := (counters_exact "n" ⟨by decide, by decide⟩).2.2
    (some (.object [("n", .number (.posInt ⟨2 ^ 63 - 1, by decide⟩))])) (2 ^ 63 - 1) ⟨1, by decide⟩
    (.field (by decide) rfl (show ((2 ^ 63 - 1 : Nat) : Int) = 2 ^ 63 - 1 by decide)) (by decide)
  exact Prod.ext (h.2.2 _ rfl fun _ map hmap => by cases hmap; simp [Assoc.get?]) h.1

/-- A path that pollutes prototypes is refused, whatever stands there: a one under `__proto__` stays a one. -/
theorem proto_not_counted :
    let one : I64 := ⟨1, by decide⟩
    let old : Value := .object [("__proto__", .number (.posInt 1))]
    Counts "__proto__" (some old) 1 ∧ InRange (1 + (Count.up one).delta) ∧
      (applyUpdateOps (some old) [(Count.up one).op "__proto__"]).2 ≠ [] ∧
      ¬ Counts "__proto__" (some (applyUpdateOps (some old) [(Count.up one).op "__proto__"]).1)
        (1 + (Count.up one).delta) := by
  have hrefused : (applyUpdateOps (some (.object [("__proto__", .number (.posInt 1))]))
      [(Count.up ⟨1, by decide⟩).op "__proto__"]) =
        (.object [("__proto__", .number (.posInt 1))],
          [err 0 "increment.path.proto_polluted" "Path segment '__proto__' is not allowed (prototype pollution)."]) := by
    rfl
  refine ⟨.field (by decide) rfl rfl, by decide, ?_, ?_⟩
  · rw [hrefused]
    exact List.cons_ne_nil _ _
  · rw [hrefused]
    intro h
    cases h with
    | field _ hget hnum =>
      cases hget
      have htwo : ((1 : Fin (2 ^ 64)).1 : Int) = 1 + 1 := hnum
      exact absurd htwo (by decide)

end Iii.Update
