import Iii.Filter.Language
import Iii.Lib.Lists

/-! The two walks in front of the parser.

`ensure_json_depth` and `ensure_encoded_size` run on a value of any nesting, so both
keep their own stack. The first accepts exactly the values that nest at most
`maxJsonDepth` deep (`ensureJsonDepth_ok`), the second exactly those whose compact
text fits (`ensureEncodedSize_ok`), though it never writes that text as a whole. -/
namespace Iii.Filter

/-! ### Nesting -/

/-- `ensure_json_depth` measures the nesting. -/
theorem ensureJsonDepth_ok (v : Value) : ensureJsonDepth v = .ok () ↔ v.depth ≤ maxJsonDepth := by
  rw [← Json.walkDepth_ok, ensureJsonDepth]
  split_ifs with h <;> simp [h]

/-! ### Encoded size -/

section Size
variable (ft : FloatText)

/-- The bytes of the compact JSON text of a value. -/
def encodedSize (v : Value) : Nat := (utf8Code.encode (write ft v)).length

def keySize (key : String) : Nat := (utf8Code.encode (writeString key)).length

theorem utf8_ofList (l : List Char) : utf8 (String.ofList l) = utf8Code.encode l := by
  rw [utf8, String.toList_ofList]

theorem size_writeItems (items : List Value) : (utf8Code.encode (writeItems ft items)).length =
    items.length + (items.map (encodedSize ft)).sum := by
  induction items with
  | nil => rfl
  | cons j rest ih =>
    have hcomma : (utf8Code.word ',').length = 1 := rfl
    simp only [writeItems, Lib.LexCode.encode_cons, Lib.LexCode.encode_append, List.length_append, ih,
      hcomma, List.map_cons, List.sum_cons, List.length_cons, encodedSize]
    omega

theorem size_writeMembers (map : List (String × Value)) :
    (utf8Code.encode (writeMembers ft map)).length =
      map.length + map.length + (map.map fun m => keySize m.1).sum
        + (map.map fun m => encodedSize ft m.2).sum := by
  induction map with
  | nil => rfl
  | cons m rest ih =>
    have hcomma : (utf8Code.word ',').length = 1 := rfl
    have hcolon : (utf8Code.word ':').length = 1 := rfl
    simp only [writeMembers, Lib.LexCode.encode_cons, Lib.LexCode.encode_append, List.length_append, ih,
      hcomma, hcolon, List.map_cons, List.sum_cons, List.length_cons, encodedSize, keySize]
    omega

theorem encodedSize_array (items : List Value) : encodedSize ft (.array items) =
    2 + (items.length - 1) + (items.map (encodedSize ft)).sum := by
  cases items with
  | nil => rfl
  | cons j rest =>
    have hopen : (utf8Code.word '[').length = 1 := rfl
    have hclose : (utf8Code.word ']').length = 1 := rfl
    simp only [encodedSize, write, Lib.LexCode.encode_cons, Lib.LexCode.encode_append,
      List.length_append, size_writeItems, hopen, hclose, List.map_cons, List.sum_cons,
      List.length_cons, Lib.LexCode.encode_nil, List.length_nil]
    omega

theorem encodedSize_object (map : List (String × Value)) : encodedSize ft (.object map) =
    2 + (map.length - 1) + map.length + (map.map fun m => keySize m.1).sum
      + (map.map fun m => encodedSize ft m.2).sum := by
  cases map with
  | nil => rfl
  | cons m rest =>
    have hopen : (utf8Code.word '\x7b').length = 1 := rfl
    have hclose : (utf8Code.word '\x7d').length = 1 := rfl
    have hcolon : (utf8Code.word ':').length = 1 := rfl
    simp only [encodedSize, write, Lib.LexCode.encode_cons, Lib.LexCode.encode_append,
      List.length_append, size_writeMembers, hopen, hclose, hcolon, List.map_cons, List.sum_cons,
      List.length_cons, Lib.LexCode.encode_nil, List.length_nil, keySize]
    omega

/-- What is left of the budget once all on the stack is measured. -/
theorem measure_eq (passes : Nat) (pending : List Value) (budget : Nat)
    (h : Json.countItems pending ≤ passes) :
    measure ft passes pending budget =
      if (pending.map (encodedSize ft)).sum ≤ budget then
        some (budget - (pending.map (encodedSize ft)).sum) else none := by
  induction passes generalizing pending budget with
  | zero =>
    cases pending with
    | nil => simp [measure]
    | cons v rest =>
      have := Json.count_pos v
      rw [Json.countItems] at h
      omega
  | succ passes ih =>
    -- a container's own bytes come off the budget now, those of its parts when they are popped
    have hspend : ∀ bytes budget pending, Json.countItems pending ≤ passes →
        (if bytes ≤ budget then measure ft passes pending (budget - bytes) else none) =
          if bytes + (pending.map (encodedSize ft)).sum ≤ budget then
            some (budget - (bytes + (pending.map (encodedSize ft)).sum)) else none := by
      intro bytes budget pending hpending
      rw [ih pending _ hpending]
      split_ifs <;> first | rfl | omega | (congr 1; omega)
    cases pending with
    | nil => simp [measure]
    | cons v rest =>
      rw [Json.countItems] at h
      have hpos := Json.count_pos v
      cases v with
      | array items =>
        rw [Json.count] at h
        simp only [measure]
        rw [hspend _ _ _ (by simp; omega), List.map_cons, List.sum_cons, encodedSize_array]
        simp only [List.map_append, List.map_reverse, List.sum_append, List.sum_reverse, Nat.add_assoc]
      | object map =>
        rw [Json.count] at h
        simp only [measure]
        rw [hspend _ _ _ (by simp; omega), List.map_cons, List.sum_cons, encodedSize_object]
        simp only [List.map_append, List.map_reverse, List.sum_append, List.sum_reverse, List.map_map,
          Function.comp_def, utf8_ofList, keySize, Nat.add_assoc]
      | _ =>
        simp only [measure]
        rw [hspend _ _ _ (by omega), List.map_cons, List.sum_cons, utf8_ofList]
        rfl

/-- `ensure_encoded_size` measures the compact text. -/
theorem ensureEncodedSize_ok (v : Value) :
    ensureEncodedSize ft v = .ok () ↔ encodedSize ft v ≤ maxEncodedBytes := by
  unfold ensureEncodedSize
  rw [measure_eq ft _ _ _ (by simp [Json.countItems]), List.map_singleton, List.sum_singleton]
  split_ifs with h <;> simp [h]

end Size

end Iii.Filter
