import Mathlib.Data.List.Basic

/-! The file of a scope (`builtins/kv.rs`).

Every scope has a file of its own in the storage directory, named by the scope's
index with the bytes that are not plain written as `%XX`. File names are kept as
their bytes. Loading reads the index back from the name. -/
namespace Iii.Kv

def isPlain (b : UInt8) : Bool :=
  (65 ≤ b && b ≤ 90) || (97 ≤ b && b ≤ 122) || (48 ≤ b && b ≤ 57) || b = 45 || b = 95 || b = 46

/-- The digit of `{:X}`. -/
def upperHex (n : UInt8) : UInt8 := if n < 10 then 48 + n else 55 + n

/-- `to_digit(16)`. -/
def hexDigit (b : UInt8) : Option UInt8 :=
  if 48 ≤ b && b ≤ 57 then some (b - 48)
  else if 97 ≤ b && b ≤ 102 then some (b - 87)
  else if 65 ≤ b && b ≤ 70 then some (b - 55)
  else none

def encodeByte (b : UInt8) : List UInt8 :=
  if isPlain b then [b] else [37, upperHex (b / 16), upperHex (b % 16)]

def encodeBytes (bytes : List UInt8) : List UInt8 := bytes.flatMap encodeByte

def decodeBytes : List UInt8 → Option (List UInt8)
  | [] => some []
  | 37 :: high :: low :: rest => do
    let high ← hexDigit high
    let low ← hexDigit low
    return (high * 16 + low) :: (← decodeBytes rest)
  | [37] | [37, _] => none
  | b :: rest => do return b :: (← decodeBytes rest)

def bytesOf (s : String) : List UInt8 := s.toByteArray.data.toList

def encodeIndex (index : String) : List UInt8 := encodeBytes (bytesOf index)

def decodeIndex (encoded : List UInt8) : Option String := do
  String.fromUTF8? ⟨(← decodeBytes encoded).toArray⟩

/-- `.bin`. -/
def extension : List UInt8 := [46, 98, 105, 110]

def indexFileName (index : String) : List UInt8 := encodeIndex index ++ extension

def indexFromPath (name : List UInt8) : Option String :=
  if extension.isSuffixOf name then decodeIndex (name.take (name.length - extension.length)) else none

/-! ### Reading the name back -/

theorem hexDigit_upperHex {n : UInt8} (h : n.toNat < 16) : hexDigit (upperHex n) = some n := by
  have hall : ∀ k < 16, hexDigit (upperHex (UInt8.ofNat k)) = some (UInt8.ofNat k) := by decide
  have hdigit := hall n.toNat h
  rwa [UInt8.ofNat_toNat] at hdigit

theorem decodeByte_encodeByte (b : UInt8) : hexDigit (upperHex (b / 16)) = some (b / 16) ∧
    hexDigit (upperHex (b % 16)) = some (b % 16) ∧ b / 16 * 16 + b % 16 = b := by
  have hlt := b.toNat_lt
  refine ⟨hexDigit_upperHex ?_, hexDigit_upperHex ?_, UInt8.toNat_inj.mp ?_⟩
  · rw [UInt8.toNat_div]
    exact Nat.div_lt_of_lt_mul hlt
  · rw [UInt8.toNat_mod]
    exact Nat.mod_lt _ (by decide)
  · rw [UInt8.toNat_add, UInt8.toNat_mul, UInt8.toNat_div, UInt8.toNat_mod]
    show ((b.toNat / 16 * 16) % 256 + b.toNat % 16) % 256 = b.toNat
    omega

theorem decodeBytes_plain {b : UInt8} (h : b ≠ 37) (rest : List UInt8) :
    decodeBytes (b :: rest) = (decodeBytes rest).map (b :: ·) := by
  rw [decodeBytes.eq_def]
  split
  · rename_i heq
    cases heq
  · rename_i heq
    cases heq
    exact absurd rfl h
  · rename_i heq
    cases heq
    exact absurd rfl h
  · rename_i heq
    cases heq
    exact absurd rfl h
  · rename_i heq
    cases heq
    cases decodeBytes rest <;> rfl

theorem decodeBytes_encodeByte (b : UInt8) (rest : List UInt8) :
    decodeBytes (encodeByte b ++ rest) = (decodeBytes rest).map (b :: ·) := by
  unfold encodeByte
  by_cases hplain : isPlain b = true
  · have hne : b ≠ 37 := by
      rintro rfl
      exact absurd hplain (by decide)
    rw [if_pos hplain, List.singleton_append, decodeBytes_plain hne]
  · obtain ⟨hhigh, hlow, hsum⟩ := decodeByte_encodeByte b
    rw [if_neg hplain]
    simp only [List.cons_append, List.nil_append, decodeBytes, hhigh, hlow, Option.bind_eq_bind,
      Option.bind_some, hsum]
    cases decodeBytes rest <;> rfl

theorem decodeBytes_encodeBytes (bytes : List UInt8) : decodeBytes (encodeBytes bytes) = some bytes := by
  induction bytes with
  | nil => rfl
  | cons b rest ih =>
    rw [encodeBytes, List.flatMap_cons, decodeBytes_encodeByte, ← encodeBytes, ih]
    rfl

theorem decodeIndex_encodeIndex (index : String) : decodeIndex (encodeIndex index) = some index := by
  unfold decodeIndex encodeIndex
  rw [decodeBytes_encodeBytes]
  show String.fromUTF8? index.toByteArray = some index
  unfold String.fromUTF8?
  rw [dif_pos index.isValidUTF8]
  rfl

/-- A file is loaded as the scope it was written for. -/
theorem indexFromPath_indexFileName (index : String) : indexFromPath (indexFileName index) = some index := by
  unfold indexFromPath indexFileName
  rw [if_pos (by simp), List.length_append, Nat.add_sub_cancel, List.take_left]
  exact decodeIndex_encodeIndex index

/-- Different scopes have different files. -/
theorem indexFileName_injective : Function.Injective indexFileName := by
  intro a b h
  have ha := indexFromPath_indexFileName a
  rw [h, indexFromPath_indexFileName b] at ha
  exact (Option.some.inj ha).symm

end Iii.Kv
