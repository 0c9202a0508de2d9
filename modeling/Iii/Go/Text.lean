import Iii.Go.Agree
import Iii.Json.Grammar

/-! The scan of a filter's text before it is decoded (`checkText`).

One pass over the bytes counts open brackets and pairs surrogate escapes. On a JSON
text of a value it fails exactly when the value nests too deep (`checkText_ok`):
brackets inside strings are not counted, and escapes denote characters. -/
namespace Iii.Go
open Filter Sdk

/-! ### `checkText` -/

/-- A continuation byte within bounds. -/
def within (lo hi b : Nat) : Bool := lo ≤ b && b ≤ hi

/-- `utf8.Valid`. -/
def utf8Valid : Units → Bool
  | [] => true
  | a :: rest =>
    if a < 0x80 then utf8Valid rest
    else match rest with
      | b :: rest2 =>
        if within 0xC2 0xDF a then within 0x80 0xBF b && utf8Valid rest2
        else match rest2 with
          | c :: rest3 =>
            if within 0xE0 0xEF a then
              within (if a = 0xE0 then 0xA0 else 0x80) (if a = 0xED then 0x9F else 0xBF) b
                && within 0x80 0xBF c && utf8Valid rest3
            else match rest3 with
              | d :: rest4 =>
                within 0xF0 0xF4 a
                  && within (if a = 0xF0 then 0x90 else 0x80) (if a = 0xF4 then 0x8F else 0xBF) b
                  && within 0x80 0xBF c && within 0x80 0xBF d && utf8Valid rest4
              | [] => false
          | [] => false
      | [] => false

def loneSurrogate : Error := invalid (code.text "a filter string holds a lone UTF-16 surrogate")

def nestsTooMuch : Error :=
  invalid (code.text "the filter nests more than " ++ code.text (toString maxJsonDepth)
    ++ code.text " arrays / objects")

/-- The loop of `checkText`: `pendingHigh` says that the previous escape was a high
surrogate. -/
def scan : (inString pendingHigh : Bool) → (depth : Int) → Units → Except Error Unit
  | _, _, _, [] => .ok ()
  | false, pendingHigh, depth, c :: rest =>
    if c = 34 then scan true pendingHigh depth rest
    else if c = 123 ∨ c = 91 then
      if depth + 1 > maxJsonDepth then .error nestsTooMuch
      else scan false pendingHigh (depth + 1) rest
    else if c = 125 ∨ c = 93 then scan false pendingHigh (depth - 1) rest
    else scan false pendingHigh depth rest
  | true, pendingHigh, depth, c :: rest =>
    if c = 34 then
      if pendingHigh then .error loneSurrogate else scan false pendingHigh depth rest
    else if c = 92 then
      match rest with
      | [] => .ok ()
      | 117 :: x :: y :: z :: w :: rest =>
        match hex4 x y z w with
        | none => .ok ()
        | some n =>
          if 0xD800 ≤ n ∧ n ≤ 0xDBFF then
            if pendingHigh then .error loneSurrogate else scan true true depth rest
          else if 0xDC00 ≤ n ∧ n ≤ 0xDFFF then
            if !pendingHigh then .error loneSurrogate else scan true false depth rest
          else if pendingHigh then .error loneSurrogate
          else scan true pendingHigh depth rest
      | _ :: rest =>
        if pendingHigh then .error loneSurrogate else scan true pendingHigh depth rest
    else if pendingHigh then .error loneSurrogate
    else scan true pendingHigh depth rest

theorem scan_outside (pendingHigh : Bool) (depth : Int) (c : Nat) (rest : Units) :
    scan false pendingHigh depth (c :: rest) =
      if c = 34 then scan true pendingHigh depth rest
      else if c = 123 ∨ c = 91 then
        if depth + 1 > maxJsonDepth then .error nestsTooMuch else scan false pendingHigh (depth + 1) rest
      else if c = 125 ∨ c = 93 then scan false pendingHigh (depth - 1) rest
      else scan false pendingHigh depth rest := rfl

theorem scan_inside {c : Nat} (hslash : c ≠ 92) (depth : Int) (rest : Units) :
    scan true false depth (c :: rest) = if c = 34 then scan false false depth rest else scan true false depth rest := by
  rw [scan.eq_def]
  simp [hslash]

def checkText (data : Units) : Except Error Unit :=
  if !utf8Valid data then .error (invalid (code.text "a filter must be valid UTF-8"))
  else scan false false 0 data

/-! ### Texts are valid UTF-8 -/

theorem utf8Valid_char (c : Char) (rest : Units) : utf8Valid (utf8Char c ++ rest) = utf8Valid rest := by
  have hvalid : c.toNat < 0xD800 ∨ 0xDFFF < c.toNat ∧ c.toNat < 0x110000 := c.valid
  have hcont : ∀ n, within 0x80 0xBF (0x80 + n % 64) = true := by
    intro n
    simp [within]
    omega
  unfold utf8Char
  simp only
  split_ifs with h1 h2 h3 <;>
    simp only [List.cons_append, List.nil_append] <;> rw [utf8Valid.eq_def] <;> simp only
  · rw [if_pos h1]
  · have hlead : within 0xC2 0xDF (0xC0 + c.toNat / 64) = true := by
      simp [within]
      omega
    rw [if_neg (by omega), if_pos hlead, hcont, Bool.true_and]
  · have htwo : ¬ within 0xC2 0xDF (0xE0 + c.toNat / 4096) = true := by
      simp [within]
      omega
    have hthree : within 0xE0 0xEF (0xE0 + c.toNat / 4096) = true := by
      simp [within]
      omega
    have hsecond : within (if 0xE0 + c.toNat / 4096 = 0xE0 then 0xA0 else 0x80)
        (if 0xE0 + c.toNat / 4096 = 0xED then 0x9F else 0xBF) (0x80 + c.toNat / 64 % 64) = true := by
      simp only [within, Bool.and_eq_true, decide_eq_true_iff]
      split_ifs <;> omega
    rw [if_neg (by omega), if_neg htwo, if_pos hthree, hsecond, hcont, Bool.true_and, Bool.true_and]
  · have htwo : ¬ within 0xC2 0xDF (0xF0 + c.toNat / 262144) = true := by
      simp [within]
      omega
    have hthree : ¬ within 0xE0 0xEF (0xF0 + c.toNat / 262144) = true := by
      simp [within]
      omega
    have hfour : within 0xF0 0xF4 (0xF0 + c.toNat / 262144) = true := by
      simp [within]
      omega
    have hsecond : within (if 0xF0 + c.toNat / 262144 = 0xF0 then 0x90 else 0x80)
        (if 0xF0 + c.toNat / 262144 = 0xF4 then 0x8F else 0xBF) (0x80 + c.toNat / 4096 % 64) = true := by
      simp only [within, Bool.and_eq_true, decide_eq_true_iff]
      split_ifs <;> omega
    rw [if_neg (by omega), if_neg htwo, if_neg hthree, hfour, hsecond, hcont, hcont, Bool.true_and,
      Bool.true_and, Bool.true_and, Bool.true_and]

theorem utf8Valid_encode (t : List Char) : utf8Valid (code.encode t) = true := by
  induction t with
  | nil => rfl
  | cons c rest ih =>
    rw [code.encode_cons]
    exact (utf8Valid_char c _).trans ih

/-! ### Outside strings -/

/-- A character that the scan steps over outside a string. -/
def quiet (c : Char) : Bool :=
  c.toNat < 128 && c.toNat ∉ [34, 123, 91, 125, 93]

theorem encode_ascii {c : Char} (h : c.toNat < 128) (t : List Char) :
    code.encode (c :: t) = c.toNat :: code.encode t := by
  rw [code.encode_cons, code.ascii c h]
  rfl

theorem scan_quiet {w : List Char} (hw : ∀ c ∈ w, quiet c = true) (depth : Int) (rest : Units) :
    scan false false depth (code.encode w ++ rest) = scan false false depth rest := by
  induction w with
  | nil => rfl
  | cons c w ih =>
    rw [List.forall_mem_cons] at hw
    have hc := hw.1
    simp only [quiet, Bool.and_eq_true, decide_eq_true_iff, List.mem_cons, List.not_mem_nil, or_false,
      not_or] at hc
    obtain ⟨hlt, hquote, hbrace, hbracket, hclose, hclose'⟩ := hc
    rw [encode_ascii hlt, List.cons_append, scan_outside, if_neg hquote, if_neg (by tauto), if_neg (by tauto)]
    exact ih hw.2

theorem quiet_of_space {w : List Char} (hw : Space w) : ∀ c ∈ w, quiet c = true := by
  intro c hc
  have hspace := hw c hc
  simp only [isSpace, Bool.or_eq_true, decide_eq_true_iff] at hspace
  rcases hspace with ((rfl | rfl) | rfl) | rfl <;> rfl

theorem quiet_of_numeric {c : Char} (h : isNumeric c = true) : quiet c = true := by
  simp only [isNumeric, isNumberChar, Bool.or_eq_true, decide_eq_true_iff, ← isDigit_char, isDigit,
    Bool.and_eq_true] at h
  rcases h with ((((h | rfl) | rfl) | rfl) | rfl) | rfl
  · simp only [Go.quiet, Bool.and_eq_true, decide_eq_true_iff, List.mem_cons, List.not_mem_nil,
      or_false, not_or]
    omega
  all_goals rfl

/-! ### Inside strings -/

theorem scan_escape {e : Nat} (he : e ≠ 117) (depth : Int) (rest : Units) :
    scan true false depth (92 :: e :: rest) = scan true false depth rest := by
  rw [scan.eq_def]
  simp only [show ¬ (92 = 34) by decide, if_false, if_true]
  split
  · simp_all
  · simp_all
  · simp_all

variable {t : List Char}

theorem scan_unicode {n : Nat} (h : UnicodeEscape t n) (high : Bool) (depth : Int) (rest : Units) :
    scan true high depth (code.encode t ++ rest) =
      if 0xD800 ≤ n ∧ n ≤ 0xDBFF then
        if high then .error loneSurrogate else scan true true depth rest
      else if 0xDC00 ≤ n ∧ n ≤ 0xDFFF then
        if !high then .error loneSurrogate else scan true false depth rest
      else if high then .error loneSurrogate
      else scan true high depth rest := by
  obtain ⟨a, b, c, d, rfl, hhex⟩ := h.shape
  have hdigit : ∀ {x : Char} {v : Nat}, hexOf x.toNat = some v → x.toNat < 128 := by
    intro x v hx
    unfold hexOf at hx
    split_ifs at hx <;> omega
  obtain ⟨va, ha, vb, hb, vc, hc, vd, hd, -⟩ : ∃ va, hexOf a.toNat = some va ∧
      ∃ vb, hexOf b.toNat = some vb ∧ ∃ vc, hexOf c.toNat = some vc ∧
      ∃ vd, hexOf d.toNat = some vd ∧ some (((va * 16 + vb) * 16 + vc) * 16 + vd) = some n := by
    simpa only [hex4, bind, Option.bind_eq_some_iff, pure] using hhex
  rw [encode_ascii (by decide), encode_ascii (by decide), encode_ascii (hdigit ha),
    encode_ascii (hdigit hb), encode_ascii (hdigit hc), encode_ascii (hdigit hd)]
  show scan true high depth (92 :: 117 :: a.toNat :: b.toNat :: c.toNat :: d.toNat :: rest) = _
  rw [scan]
  simp only [hhex, show ¬ (92 = 34) by decide, if_false, if_true]

theorem scan_char {c : Char} (h : SpellsChar t c) (depth : Int) (rest : Units) :
    scan true false depth (code.encode t ++ rest) = scan true false depth rest := by
  cases h with
  | plain _ hq hs hc =>
    have hstep : ∀ u, u ≠ 34 → u ≠ 92 → ∀ rest,
        scan true false depth (u :: rest) = scan true false depth rest := by
      intro u hquote hslash rest
      rw [scan_inside hslash, if_neg hquote]
    have hsteps : ∀ w : Units, (∀ u ∈ w, u ≠ 34 ∧ u ≠ 92) →
        scan true false depth (w ++ rest) = scan true false depth rest := by
      intro w hw
      induction w with
      | nil => rfl
      | cons u w ih =>
        rw [List.forall_mem_cons] at hw
        rw [List.cons_append, hstep u hw.1.1 hw.1.2, ih hw.2]
    rw [code.encode_cons]
    refine hsteps _ ?_
    rcases code.word_cases c with ⟨hw, -⟩ | ⟨u, w, hw, hu, hws, -⟩
    · rw [hw]
      have hquote : c.toNat ≠ 34 := fun h => hq (Char.toNat_inj.mp h)
      have hslash : c.toNat ≠ 92 := fun h => hs (Char.toNat_inj.mp h)
      simpa [UnitCode.encode] using ⟨hquote, hslash⟩
    · rw [hw]
      intro x hx
      have hwide : 128 ≤ x := by
        rcases List.mem_append.mp hx with hx | hx
        · rcases List.mem_cons.mp hx with rfl | hx
          · exact hu
          · exact hws x hx
        · cases hx
      omega
  | escape e _ he =>
    have hascii : e.toNat < 128 ∧ e.toNat ≠ 117 := by
      unfold escapeOf at he
      split_ifs at he <;> simp_all
    rw [encode_ascii (by decide), encode_ascii hascii.1]
    exact scan_escape hascii.2 depth rest
  | unicode _ n ht hn =>
    rw [scan_unicode ht, if_neg (by omega), if_neg (by omega)]
    rfl
  | pair t t' n n' ht ht' hn hn' =>
    rw [code.encode_append, List.append_assoc, scan_unicode ht, if_pos hn, if_neg (by decide),
      scan_unicode ht', if_neg (by omega), if_pos hn', if_neg (by decide)]

theorem scan_chars {cs : List Char} (h : SpellsChars t cs) (depth : Int) (rest : Units) :
    scan true false depth (code.encode t ++ rest) = scan true false depth rest := by
  induction h with
  | nil => rfl
  | cons hc _ ih => rw [code.encode_append, List.append_assoc, scan_char hc, ih]

theorem scan_string {s : String} (h : SpellsString t s) (depth : Int) (rest : Units) :
    scan false false depth (code.encode t ++ rest) = scan false false depth rest := by
  obtain ⟨hchars⟩ := h
  rw [encode_ascii (by decide), code.encode_append, encode_ascii (by decide), List.cons_append,
    List.append_assoc]
  show scan true false depth _ = _
  rw [scan_chars hchars]
  exact scan_inside (by decide) depth rest

/-! ### Values -/

/-- The scan passes over a text nested `k` deep, or finds it too deep. -/
def Passes (t : List Char) (k : Nat) : Prop :=
  ∀ depth : Nat, depth ≤ maxJsonDepth → ∀ rest : Units,
    scan false false depth (code.encode t ++ rest) =
      if depth + k ≤ maxJsonDepth then scan false false depth rest else .error nestsTooMuch

theorem passes_quiet {w : List Char} (hw : ∀ c ∈ w, quiet c = true) : Passes w 0 := by
  intro depth hdepth rest
  rw [scan_quiet hw, if_pos (by omega)]

theorem passes_string {s : String} (h : SpellsString t s) : Passes t 0 := by
  intro depth hdepth rest
  rw [scan_string h, if_pos (by omega)]

theorem Passes.append {u : List Char} {k m : Nat} (h : Passes t k) (h' : Passes u m) :
    Passes (t ++ u) (max k m) := by
  intro depth hdepth rest
  rw [code.encode_append, List.append_assoc, h depth hdepth, h' depth hdepth]
  split_ifs <;> first | rfl | omega

theorem Passes.comma {u : List Char} {k m : Nat} (h : Passes t k) (h' : Passes u m) :
    Passes (t ++ ',' :: u) (max k m) := by
  have hcomma : Passes [','] 0 := passes_quiet (List.all_eq_true.mp rfl)
  have h := h.append (hcomma.append h')
  rwa [Nat.zero_max] at h

/-- Brackets are one level. -/
theorem Passes.bracket {k : Nat} (h : Passes t k) {o c : Char} (hoc : o = '[' ∧ c = ']' ∨ o = '{' ∧ c = '}') :
    Passes (o :: (t ++ [c])) (1 + k) := by
  intro depth hdepth rest
  have hopen : ∀ text, scan false false depth (code.encode (o :: text) ++ rest) =
      if depth + 1 ≤ maxJsonDepth then scan false false (depth + 1 : Nat) (code.encode text ++ rest)
      else .error nestsTooMuch := by
    intro text
    have hsmall : (depth : Int) + 1 > maxJsonDepth ↔ ¬ depth + 1 ≤ maxJsonDepth := by omega
    rcases hoc with ⟨rfl, -⟩ | ⟨rfl, -⟩ <;>
      · rw [encode_ascii (by decide), List.cons_append, scan_outside, if_neg (by decide), if_pos (by decide)]
        simp only [hsmall, ite_not]
        rfl
  have hclose : ∀ n : Nat, scan false false (n + 1 : Nat) (code.encode [c] ++ rest) =
      scan false false n rest := by
    intro n
    rcases hoc with ⟨-, rfl⟩ | ⟨-, rfl⟩ <;>
      · rw [encode_ascii (by decide), List.cons_append, scan_outside, if_neg (by decide), if_neg (by decide),
          if_pos (by decide), Nat.cast_succ, add_sub_cancel_right]
        rfl
  rw [hopen, code.encode_append, List.append_assoc]
  split_ifs with h1 h2
  · rw [h (depth + 1) h1, if_pos (by omega), hclose]
  · rw [h (depth + 1) h1, if_neg (by omega)]
  · omega
  · rfl

mutual
/-- **The scan counts the nesting of the value.** -/
theorem passes_spells : ∀ {t : List Char} {j : Src}, Spells t j → Passes t j.depth
  | _, _, .null => passes_quiet (List.all_eq_true.mp rfl)
  | _, _, .true => passes_quiet (List.all_eq_true.mp rfl)
  | _, _, .false => passes_quiet (List.all_eq_true.mp rfl)
  | _, _, .number n h => passes_quiet fun c hc => quiet_of_numeric (h c hc)
  | _, _, .string h => passes_string h
  | _, _, .array h => (passes_items h).bracket (.inl ⟨rfl, rfl⟩)
  | _, _, .object h => (passes_members h).bracket (.inr ⟨rfl, rfl⟩)
  | _, _, .space hw hw' h => by
    have hvalue := (passes_spells h).append (passes_quiet (quiet_of_space hw'))
    simpa using (passes_quiet (quiet_of_space hw)).append hvalue
theorem passes_items : ∀ {t : List Char} {items : List Src}, SpellsItems t items →
    Passes t (Json.depthItems items)
  | _, _, .nil hw => passes_quiet (quiet_of_space hw)
  | _, _, .one h => by simpa [Json.depthItems] using passes_spells h
  | _, _, .cons h hs => (passes_spells h).comma (passes_items hs)
theorem passes_members : ∀ {t : List Char} {members : List (String × Src)},
    SpellsMembers t members → Passes t (Json.depthMembers members)
  | _, _, .nil hw => passes_quiet (quiet_of_space hw)
  | _, _, .one h => by simpa [Json.depthMembers] using passes_member h
  | _, _, .cons h hs => (passes_member h).comma (passes_members hs)
theorem passes_member : ∀ {t : List Char} {m : String × Src}, SpellsMember t m → Passes t m.2.depth
  | _, _, .member hw hk hw' h => by
    have hcolon : Passes [':'] 0 := passes_quiet (List.all_eq_true.mp rfl)
    have hvalue := (passes_quiet (quiet_of_space hw')).append (hcolon.append (passes_spells h))
    simpa using (passes_quiet (quiet_of_space hw)).append ((passes_string hk).append hvalue)
end

/-- A text passes when its value nests at most `MaxJSONDepth` deep. -/
theorem checkText_ok {j : Src} (h : Spells t j) :
    checkText (code.encode t) = .ok () ↔ j.depth ≤ maxJsonDepth := by
  have hscan := passes_spells h 0 (Nat.zero_le _) []
  rw [List.append_nil, Nat.zero_add] at hscan
  rw [checkText, utf8Valid_encode]
  show scan false false ((0 : Nat) : Int) (code.encode t) = .ok () ↔ _
  rw [hscan]
  split_ifs with hle
  · exact ⟨fun _ => hle, fun _ => rfl⟩
  · simpa using hle

end Iii.Go
