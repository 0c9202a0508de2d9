import Iii.Worker.Positions
import Iii.Worker.ObjectText

/-! The envelope of an oversized message is not guessed.

On the text of an object the members read forward are its string members in order (`heads_eq`), and
those read backward are the same in reverse (`tails_eq`). Reading is local, so what is read in a part
of the text is among them; and a member is read when the part has it and all that comes before. -/
namespace Iii.Worker
open Lib

variable {decode : List Byte → Option String}

/-- What `serde_json` makes of the literals of a member. -/
def MemberText.DecodedBy (decode : List Byte → Option String) (m : MemberText) : Prop :=
  decode (textBytes m.key) = some m.name ∧ ∀ v, m.json = .string v → decode (textBytes m.value) = some v

/-- The member, if its value is a string. -/
def MemberText.found (m : MemberText) : List (String × String) := ((asString m.json).map (m.name, ·)).toList

variable {p : String × String} {m : MemberText} {s : List Byte}

theorem MemberText.mem_found :
    p ∈ m.found ↔ m.name = p.1 ∧ m.json = .string p.2 := by
  obtain ⟨name, v⟩ := p
  simp [found, asString_eq_some, and_comm]

theorem stringOf_value (h : m.DecodedBy decode) :
    stringOf decode (textBytes m.value) = asString m.json := by
  have hhead := head?_spells m.hvalue m.tight
  unfold stringOf
  cases hjson : asString m.json with
  | none =>
    rw [hjson] at hhead
    rw [if_neg (by simpa using hhead)]
  | some v =>
    rw [hjson] at hhead
    rw [if_pos (by simpa using hhead), h.2 v (asString_eq_some.mp hjson)]

/-! ### White space -/

theorem isJsonSpace_of_mem {w : List Char} (hw : Space w) : ∀ b ∈ textBytes w, isJsonSpace b = true := by
  induction w with
  | nil => exact List.forall_mem_nil _
  | cons c w ih =>
    obtain ⟨hc, hrest⟩ := List.forall_mem_cons.mp hw
    obtain ⟨hascii, -, hspace⟩ := of_space hc
    rw [textBytes_ascii hascii, List.forall_mem_cons]
    exact ⟨hspace, ih hrest⟩

theorem dropWhile_space (hs : ∀ b ∈ s, isJsonSpace b = true) (l : List Byte) :
    (s ++ l).dropWhile isJsonSpace = l.dropWhile isJsonSpace := by
  induction s with
  | nil => rfl
  | cons b s ih =>
    rw [List.forall_mem_cons] at hs
    rw [List.cons_append, List.dropWhile_cons, if_pos hs.1, ih hs.2]

theorem dropWhile_of_not {b : Byte} (hb : isJsonSpace b = false) (l : List Byte) :
    (b :: l).dropWhile isJsonSpace = b :: l := by
  rw [List.dropWhile_cons, hb]
  rfl

/-- Space before a byte starts as the byte does, where space and the byte are alike. -/
theorem exists_head {P : Byte → Prop} (hs : ∀ b ∈ s, isJsonSpace b = true)
    (hspace : ∀ b, isJsonSpace b = true → P b) {c : Byte} (hc : P c) (l : List Byte) :
    ∃ c' l', s ++ c :: l = c' :: l' ∧ P c' := by
  cases s with
  | nil => exact ⟨c, l, rfl, hc⟩
  | cons b s => exact ⟨b, _, rfl, hspace b (hs b (List.mem_cons_self ..))⟩

theorem space_reverse (hs : ∀ b ∈ s, isJsonSpace b = true) :
    ∀ b ∈ s.reverse, isJsonSpace b = true := fun b hb => hs b (List.mem_reverse.mp hb)

theorem endsValue_space (b : Byte) (h : isJsonSpace b = true) : endsValue b = true := by
  rw [endsValue, h, Bool.or_true]

theorem startsValue_space (b : Byte) (h : isJsonSpace b = true) : startsValue b = true := by
  rw [startsValue, h, Bool.or_true]

theorem ne_backslash_space (b : Byte) (h : isJsonSpace b = true) : b ≠ backslash := by
  rintro rfl
  exact absurd h (by decide)

/-- What is read of a value is not space at either end. -/
theorem Whole.not_space {v : List Byte} (h : Whole v) :
    (∃ b l, v = b :: l ∧ isJsonSpace b = false) ∧ ∃ b l, v.reverse = b :: l ∧ isJsonSpace b = false := by
  have hbracket : ∀ b, opens b = true ∨ closes b = true → isJsonSpace b = false := by
    intro b hb
    simp only [opens, closes, Bool.or_eq_true, decide_eq_true_eq] at hb
    rcases hb with (rfl | rfl) | (rfl | rfl) <;> decide
  cases h with
  | string _ => exact ⟨⟨_, _, rfl, by decide⟩, quote, _, by simp; rfl, by decide⟩
  | brackets ho hc _ =>
    exact ⟨⟨_, _, rfl, hbracket _ (.inl ho)⟩, _, _, by simp; rfl, hbracket _ (.inr hc)⟩
  | word hne hw =>
    have hword : ∀ b ∈ v, isJsonSpace b = false := by
      intro b hb
      have hends := (hw b hb).2.1
      simp only [endsValue, Bool.or_eq_false_iff] at hends
      exact hends.2
    obtain ⟨b, l, rfl⟩ := List.exists_cons_of_ne_nil hne
    obtain ⟨c, u, hc⟩ := List.exists_cons_of_ne_nil (List.reverse_ne_nil_iff.mpr hne)
    refine ⟨⟨b, l, rfl, hword b (List.mem_cons_self ..)⟩, c, u, hc, hword c ?_⟩
    rw [← List.mem_reverse, hc]
    exact List.mem_cons_self ..

theorem dropWhile_whole {v : List Byte} (h : Whole v) (l : List Byte) :
    (v ++ l).dropWhile isJsonSpace = v ++ l ∧ (v.reverse ++ l).dropWhile isJsonSpace = v.reverse ++ l := by
  obtain ⟨⟨b, u, hv, hb⟩, c, u', hv', hc⟩ := h.not_space
  refine ⟨?_, ?_⟩
  · rw [hv]
    exact dropWhile_of_not hb _
  · rw [hv']
    exact dropWhile_of_not hc _

/-! ### One member -/

namespace MemberText
variable (m : MemberText)

theorem whole_key : Whole (textBytes m.key) := by
  obtain ⟨b, hb, ht⟩ := textBytes_string m.hkey
  rw [ht]
  exact .string hb

theorem whole_value : Whole (textBytes m.value) := whole_spells m.hvalue m.tight

theorem textBytes_core : textBytes m.core =
    textBytes m.key ++ (textBytes m.middle ++ colon :: (textBytes m.gap ++ textBytes m.value)) := by
  rw [core, textBytes_append, textBytes_append, textBytes_ascii (by decide), textBytes_append]
  rfl

theorem forward_key (l : List Byte) : forward.string (textBytes m.key ++ l) = some l := by
  obtain ⟨b, hb, ht⟩ := textBytes_string m.hkey
  rw [ht]
  exact forward_string hb l

theorem backward_key {l : List Byte} (hl : Clean l) : backward.string ((textBytes m.key).reverse ++ l) = some l := by
  obtain ⟨b, hb, ht⟩ := textBytes_string m.hkey
  rw [ht]
  exact backward_string hb hl

end MemberText

theorem expect_self (c : Byte) (l : List Byte) : expect c (c :: l) = some l := expect_eq_some.mpr rfl

/-- A member is read forward when its value is. -/
theorem headEntry_member (h : m.DecodedBy decode) {y : List Byte}
    (hvalue : forward.value (textBytes m.value ++ y) = some y) :
    headEntry decode (textBytes m.left ++ (textBytes m.core ++ y)) = some ((asString m.json).map (m.name, ·), y) := by
  rw [headEntry_eq, dropWhile_space (isJsonSpace_of_mem m.hleft), m.textBytes_core]
  simp only [List.append_assoc, List.cons_append]
  rw [(dropWhile_whole m.whole_key _).1, m.forward_key, Option.bind_some, taken_append, h.1, Option.bind_some,
    dropWhile_space (isJsonSpace_of_mem m.hmiddle), dropWhile_of_not (by decide), expect_self, Option.bind_some,
    dropWhile_space (isJsonSpace_of_mem m.hgap), (dropWhile_whole m.whole_value _).1, hvalue, Option.bind_some,
    taken_append, stringOf_value h]

/-- A member is read backward when a byte that is not a backslash comes before it. -/
theorem tailEntry_member (h : m.DecodedBy decode) {y : List Byte} (hy : Clean y) :
    tailEntry decode ((textBytes m.right).reverse ++ ((textBytes m.core).reverse ++ y)) =
      some ((asString m.json).map (m.name, ·), y) := by
  have hcore : (textBytes m.core).reverse ++ y = (textBytes m.value).reverse ++ ((textBytes m.gap).reverse ++
      colon :: ((textBytes m.middle).reverse ++ ((textBytes m.key).reverse ++ y))) := by
    rw [m.textBytes_core]
    simp
  obtain ⟨c, l, hgap, hc⟩ := exists_head (space_reverse (isJsonSpace_of_mem m.hgap)) startsValue_space
    (show startsValue colon = true by decide) ((textBytes m.middle).reverse ++ ((textBytes m.key).reverse ++ y))
  have hvalue := backward_value m.whole_value hc l
  rw [← hgap] at hvalue
  rw [tailEntry_eq, dropWhile_space (space_reverse (isJsonSpace_of_mem m.hright)), hcore,
    (dropWhile_whole m.whole_value _).2, hvalue, Option.bind_some,
    dropWhile_space (space_reverse (isJsonSpace_of_mem m.hgap)), dropWhile_of_not (by decide), expect_self,
    Option.bind_some, dropWhile_space (space_reverse (isJsonSpace_of_mem m.hmiddle)), (dropWhile_whole m.whole_key _).2,
    m.backward_key hy, Option.bind_some, taken_append, taken_append, List.reverse_reverse, List.reverse_reverse, h.1,
    Option.bind_some, stringOf_value h]

/-! ### Members in a row -/

theorem separator_comma {w : List Char} (hw : Space w) (l : List Byte) :
    separator (textBytes w ++ comma :: l) = some l := by
  rw [separator, dropWhile_space (isJsonSpace_of_mem hw), dropWhile_of_not (by decide), expect_self]

theorem separator_comma_back {w : List Char} (hw : Space w) (l : List Byte) :
    separator ((textBytes w).reverse ++ comma :: l) = some l := by
  rw [separator, dropWhile_space (space_reverse (isJsonSpace_of_mem hw)), dropWhile_of_not (by decide), expect_self]

theorem forward_value_member (m : MemberText) {c : Byte} (hc : endsValue c = true) (l : List Byte) :
    forward.value (textBytes m.value ++ (textBytes m.right ++ c :: l)) = some (textBytes m.right ++ c :: l) := by
  obtain ⟨c', l', heq, hc'⟩ := exists_head (isJsonSpace_of_mem m.hright) endsValue_space hc l
  rw [heq]
  exact forward_value m.whole_value hc' l'

variable {ps : List MemberText}

/-- Members with a comma after each are read one by one. -/
theorem entries_heads (h : ∀ m ∈ ps, m.DecodedBy decode) {n : Nat} (hn : ps.length ≤ n) (l : List Byte) :
    entries (headEntry decode) separator n (textBytes (ps.flatMap fun p => p.chars ++ [',']) ++ l) =
      ps.flatMap MemberText.found ++ entries (headEntry decode) separator (n - ps.length) l := by
  induction ps generalizing n with
  | nil => rfl
  | cons p ps ih =>
    rw [List.forall_mem_cons] at h
    obtain ⟨n, rfl⟩ := Nat.exists_eq_succ_of_ne_zero (Nat.ne_zero_of_lt hn)
    have hbytes : textBytes ((p :: ps).flatMap fun p => p.chars ++ [',']) ++ l =
        textBytes p.left ++ (textBytes p.core ++ (textBytes p.right ++
          comma :: (textBytes (ps.flatMap fun p => p.chars ++ [',']) ++ l))) := by
      rw [List.flatMap_cons, textBytes_append, MemberText.chars]
      simp only [textBytes_append, List.append_assoc]
      rfl
    have hentry := headEntry_member h.1 (forward_value_member p (show endsValue comma = true by decide)
      (textBytes (ps.flatMap fun p => p.chars ++ [',']) ++ l))
    rw [hbytes, entries_eq hentry (separator_comma p.hright _), ih h.2 (Nat.le_of_succ_le_succ hn), List.flatMap_cons,
      List.append_assoc, List.length_cons, Nat.succ_eq_add_one, Nat.add_sub_add_right]
    rfl

theorem clean_space (hs : ∀ b ∈ s, isJsonSpace b = true) {c : Byte} (hc : c ≠ backslash) (l : List Byte) :
    Clean (s ++ c :: l) :=
  exists_head hs ne_backslash_space hc l

variable {qs : List MemberText}

theorem entries_tails (h : ∀ m ∈ qs, m.DecodedBy decode) {n : Nat} (hn : qs.length ≤ n) (l : List Byte) :
    entries (tailEntry decode) separator n ((textBytes (qs.flatMap fun q => ',' :: q.chars)).reverse ++ l) =
      qs.reverse.flatMap MemberText.found ++ entries (tailEntry decode) separator (n - qs.length) l := by
  induction qs using List.reverseRecOn generalizing n with
  | nil => rfl
  | append_singleton qs q ih =>
    rw [List.forall_mem_append] at h
    rw [List.length_append, List.length_singleton] at hn ⊢
    obtain ⟨n, rfl⟩ := Nat.exists_eq_succ_of_ne_zero (Nat.ne_zero_of_lt hn)
    have hbytes : (textBytes ((qs ++ [q]).flatMap fun q => ',' :: q.chars)).reverse ++ l =
        (textBytes q.right).reverse ++ ((textBytes q.core).reverse ++ ((textBytes q.left).reverse ++
          comma :: ((textBytes (qs.flatMap fun q => ',' :: q.chars)).reverse ++ l))) := by
      rw [List.flatMap_append, List.flatMap_singleton, textBytes_append, textBytes_ascii (by decide), MemberText.chars]
      simp only [textBytes_append, List.reverse_append, List.reverse_cons, List.append_assoc]
      rfl
    have hentry := tailEntry_member (h.2 q (List.mem_singleton_self q))
      (clean_space (space_reverse (isJsonSpace_of_mem q.hleft)) (show comma ≠ backslash by decide)
        ((textBytes (qs.flatMap fun q => ',' :: q.chars)).reverse ++ l))
    rw [hbytes, entries_eq hentry (separator_comma_back q.hleft _), ih h.1 (Nat.le_of_succ_le_succ hn),
      List.reverse_append, List.flatMap_append, List.append_assoc, Nat.succ_eq_add_one, Nat.add_sub_add_right]
    simp [MemberText.found]

/-! ### The whole text -/

/-- What `serde_json` makes of the literals of an object. -/
def ObjectText.DecodedBy (decode : List Byte → Option String) (o : ObjectText) : Prop :=
  ∀ m ∈ o.members, m.DecodedBy decode

/-- The object has a string member of that name with that value. -/
def ObjectText.HasString (o : ObjectText) (p : String × String) : Prop :=
  ∃ m ∈ o.members, m.name = p.1 ∧ m.json = .string p.2

theorem length_heads (ps : List MemberText) :
    ps.length ≤ (textBytes (ps.flatMap fun p => p.chars ++ [','])).length := by
  induction ps with
  | nil => exact Nat.zero_le _
  | cons p ps ih =>
    rw [List.flatMap_cons, textBytes_append, textBytes_append, textBytes_ascii (by decide)]
    simp only [List.length_append, List.length_cons]
    omega

theorem length_tails (qs : List MemberText) : qs.length ≤ (textBytes (qs.flatMap fun q => ',' :: q.chars)).length := by
  induction qs with
  | nil => exact Nat.zero_le _
  | cons q qs ih =>
    rw [List.flatMap_cons, textBytes_append, textBytes_ascii (by decide)]
    simp only [List.length_append, List.length_cons]
    omega

theorem headEntry_space (hs : ∀ b ∈ s, isJsonSpace b = true) (l : List Byte) :
    headEntry decode (s ++ l) = headEntry decode l := by
  rw [headEntry_eq, headEntry_eq, dropWhile_space hs]

theorem entries_space (hs : ∀ b ∈ s, isJsonSpace b = true) (n : Nat) (l : List Byte) :
    entries (headEntry decode) separator n (s ++ l) = entries (headEntry decode) separator n l := by
  cases n with
  | zero => rfl
  | succ n => rw [entries, entries, headEntry_space hs]

namespace ObjectText
variable (o : ObjectText)

theorem textBytes_lead (ps : List MemberText) (m : MemberText) : textBytes (o.lead ps m) =
    textBytes o.before ++ braceOpen :: (textBytes o.gap ++ (textBytes (ps.flatMap fun p => p.chars ++ [',']) ++
      textBytes m.left)) := by
  rw [lead, textBytes_append, textBytes_ascii (by decide), textBytes_append, textBytes_append]
  rfl

theorem textBytes_rest (m : MemberText) (qs : List MemberText) : textBytes (o.rest m qs) =
    textBytes m.right ++ (textBytes (qs.flatMap fun q => ',' :: q.chars) ++ braceClose :: textBytes o.after) := by
  rw [rest, textBytes_append, textBytes_append, textBytes_ascii (by decide)]
  rfl

/-- Forward, the members that come before one are read before it. -/
theorem heads_lead {ps : List MemberText} (h : ∀ m ∈ ps, m.DecodedBy decode) (m : MemberText) (l : List Byte) :
    ∃ n, heads decode (textBytes (o.lead ps m) ++ l) = ps.flatMap MemberText.found ++
      entries (headEntry decode) separator (n + 1) (textBytes m.left ++ l) := by
  have hlen : ps.length < (textBytes (o.lead ps m) ++ l).length := by
    have hle := length_heads ps
    rw [textBytes_lead]
    simp only [List.length_append, List.length_cons]
    omega
  obtain ⟨n, hn⟩ := Nat.exists_eq_add_of_lt hlen
  refine ⟨n, ?_⟩
  have hbrace : expect braceOpen ((textBytes (o.lead ps m) ++ l).dropWhile isJsonSpace) =
      some (textBytes o.gap ++ (textBytes (ps.flatMap fun p => p.chars ++ [',']) ++ (textBytes m.left ++ l))) := by
    rw [textBytes_lead, List.append_assoc, dropWhile_space (isJsonSpace_of_mem o.hbefore), List.cons_append,
      dropWhile_of_not (by decide), expect_self]
    simp only [List.append_assoc]
  rw [heads, hbrace]
  show entries _ _ _ _ = _
  rw [entries_space (isJsonSpace_of_mem o.hgap), entries_heads h (Nat.le_of_lt hlen), hn, Nat.add_assoc,
    Nat.add_sub_cancel_left]

theorem tails_rest {qs : List MemberText} (h : ∀ m ∈ qs, m.DecodedBy decode) (m : MemberText) (l : List Byte) :
    ∃ n, tails decode ((textBytes (o.rest m qs)).reverse ++ l) = qs.reverse.flatMap MemberText.found ++
      entries (tailEntry decode) separator (n + 1) ((textBytes m.right).reverse ++ l) := by
  have hlen : qs.length < ((textBytes (o.rest m qs)).reverse ++ l).length := by
    have hle := length_tails qs
    rw [textBytes_rest]
    simp only [List.length_append, List.length_reverse, List.length_cons]
    omega
  obtain ⟨n, hn⟩ := Nat.exists_eq_add_of_lt hlen
  refine ⟨n, ?_⟩
  have hbytes : (textBytes (o.rest m qs)).reverse ++ l = (textBytes o.after).reverse ++ braceClose ::
      ((textBytes (qs.flatMap fun q => ',' :: q.chars)).reverse ++ ((textBytes m.right).reverse ++ l)) := by
    rw [textBytes_rest]
    simp
  have hbrace : expect braceClose (((textBytes (o.rest m qs)).reverse ++ l).dropWhile isJsonSpace) =
      some ((textBytes (qs.flatMap fun q => ',' :: q.chars)).reverse ++ ((textBytes m.right).reverse ++ l)) := by
    rw [hbytes, dropWhile_space (space_reverse (isJsonSpace_of_mem o.hafter)), dropWhile_of_not (by decide),
      expect_self]
  rw [tails, hbrace]
  show entries _ _ _ _ = _
  rw [entries_tails h (Nat.le_of_lt hlen), hn, Nat.add_assoc, Nat.add_sub_cancel_left]

end ObjectText

theorem separator_none (hs : ∀ b ∈ s, isJsonSpace b = true) {c : Byte} (hc : c ≠ comma)
    (hspace : isJsonSpace c = false) (l : List Byte) : separator (s ++ c :: l) = none := by
  rw [separator, dropWhile_space hs, dropWhile_of_not hspace]
  apply expect_eq_none.mpr
  rw [List.head?_cons]
  exact fun heq => hc (Option.some.inj heq)

variable {o : ObjectText}

theorem ObjectText.bytes_eq (h : o.members = ps ++ m :: qs) :
    o.bytes = textBytes (o.lead ps m) ++ (textBytes m.core ++ textBytes (o.rest m qs)) := by
  rw [bytes, chars_eq h, textBytes_append, textBytes_append]

theorem ObjectText.bytes_nil (h : o.members = []) :
    o.bytes = textBytes o.before ++ braceOpen :: (textBytes o.gap ++ braceClose :: textBytes o.after) := by
  rw [bytes, chars, h, textBytes_append, textBytes_ascii (by decide), textBytes_append]
  show _ ++ _ :: (_ ++ textBytes ('}' :: o.after)) = _
  rw [textBytes_ascii (by decide)]
  rfl

/-- Forward, the text of an object gives its string members in order. -/
theorem heads_eq (h : o.DecodedBy decode) :
    heads decode o.bytes = o.members.flatMap MemberText.found := by
  rcases List.eq_nil_or_concat o.members with hnil | ⟨ps, m, hmembers⟩
  · have hentry : headEntry decode (textBytes o.gap ++ braceClose :: textBytes o.after) = none := by
      rw [headEntry_space (isJsonSpace_of_mem o.hgap), headEntry_eq, dropWhile_of_not (by decide)]
      rfl
    rw [hnil, ObjectText.bytes_nil hnil, heads, dropWhile_space (isJsonSpace_of_mem o.hbefore),
      dropWhile_of_not (by decide), expect_self]
    exact entries_none hentry
  · rw [List.concat_eq_append] at hmembers
    have hdecoded : ∀ p ∈ ps ++ [m], p.DecodedBy decode := by
      rw [← hmembers]
      exact h
    rw [List.forall_mem_append] at hdecoded
    obtain ⟨n, hheads⟩ := o.heads_lead hdecoded.1 m (textBytes m.core ++ textBytes (o.rest m []))
    rw [ObjectText.bytes_eq hmembers, hheads, o.textBytes_rest]
    show _ ++ entries _ _ _ (_ ++ (_ ++ (_ ++ braceClose :: _))) = _
    have hentry := headEntry_member (hdecoded.2 m (List.mem_singleton_self m))
      (forward_value_member m (show endsValue braceClose = true by decide) (textBytes o.after))
    have hlast := separator_none (isJsonSpace_of_mem m.hright) (show braceClose ≠ comma by decide) (by decide)
      (textBytes o.after)
    rw [entries_last hentry hlast, hmembers, List.flatMap_append, List.flatMap_singleton]
    rfl

theorem ObjectText.reverse_lead_nil (o : ObjectText) (m : MemberText) : (textBytes (o.lead [] m)).reverse =
    (textBytes m.left).reverse ++ ((textBytes o.gap).reverse ++ braceOpen :: (textBytes o.before).reverse) := by
  rw [textBytes_lead, List.flatMap_nil, show textBytes [] = [] from rfl]
  simp

/-- Before the key of a member stands white space, a comma or a brace. -/
theorem ObjectText.clean_lead (o : ObjectText) (ps : List MemberText) (m : MemberText) :
    Clean (textBytes (o.lead ps m)).reverse := by
  have hleft := space_reverse (isJsonSpace_of_mem m.hleft)
  rcases List.eq_nil_or_concat ps with rfl | ⟨ps, p, rfl⟩
  · have hgap := space_reverse (isJsonSpace_of_mem o.hgap)
    obtain ⟨c, l, heq, hc⟩ := clean_space hgap (show braceOpen ≠ backslash by decide) (textBytes o.before).reverse
    rw [reverse_lead_nil, heq]
    exact clean_space hleft hc l
  · have hbytes : (textBytes (o.lead (ps.concat p) m)).reverse = (textBytes m.left).reverse ++ comma ::
        (textBytes o.before ++ braceOpen :: (textBytes o.gap ++ (textBytes (ps.flatMap fun p => p.chars ++ [',']) ++
          textBytes p.chars))).reverse := by
      rw [textBytes_lead, List.concat_eq_append, List.flatMap_append, List.flatMap_singleton, textBytes_append,
        textBytes_append, textBytes_ascii (by decide), show textBytes [] = [] from rfl,
        show UInt8.ofNat ','.toNat = comma from rfl]
      simp
    rw [hbytes]
    exact clean_space hleft (by decide) _

/-- Backward, it gives them in reverse. -/
theorem tails_eq (h : o.DecodedBy decode) :
    tails decode o.bytes.reverse = o.members.reverse.flatMap MemberText.found := by
  cases hmembers : o.members with
  | nil =>
    have hgap := space_reverse (isJsonSpace_of_mem o.hgap)
    have hbytes : o.bytes.reverse = (textBytes o.after).reverse ++ braceClose ::
        ((textBytes o.gap).reverse ++ braceOpen :: (textBytes o.before).reverse) := by
      rw [ObjectText.bytes_nil hmembers]
      simp
    have hentry : tailEntry decode ((textBytes o.gap).reverse ++ braceOpen :: (textBytes o.before).reverse) = none := by
      rw [tailEntry_eq, dropWhile_space hgap, dropWhile_of_not (by decide)]
      rfl
    rw [hbytes, tails, dropWhile_space (space_reverse (isJsonSpace_of_mem o.hafter)), dropWhile_of_not (by decide),
      expect_self]
    exact entries_none hentry
  | cons m qs =>
    have hdecoded : ∀ p ∈ m :: qs, p.DecodedBy decode := by
      rw [← hmembers]
      exact h
    rw [List.forall_mem_cons] at hdecoded
    have hbytes : o.bytes.reverse =
        (textBytes (o.rest m qs)).reverse ++ ((textBytes m.core).reverse ++ (textBytes (o.lead [] m)).reverse) := by
      rw [ObjectText.bytes_eq (show o.members = [] ++ m :: qs from hmembers)]
      simp
    obtain ⟨n, htails⟩ := o.tails_rest hdecoded.2 m ((textBytes m.core).reverse ++ (textBytes (o.lead [] m)).reverse)
    have hentry := tailEntry_member hdecoded.1 (o.clean_lead [] m)
    have hlast : separator (textBytes (o.lead [] m)).reverse = none := by
      rw [o.reverse_lead_nil, ← List.append_assoc]
      apply separator_none
      · exact List.forall_mem_append.mpr
          ⟨space_reverse (isJsonSpace_of_mem m.hleft), space_reverse (isJsonSpace_of_mem o.hgap)⟩
      all_goals decide
    rw [hbytes, htails, entries_last hentry hlast, List.reverse_cons, List.flatMap_append, List.flatMap_singleton]
    rfl

/-! ### Parts of the text -/

theorem headEntry_isLocal : (headEntry decode).IsLocal := by
  have hcouple : (couple isJsonSpace (reading forward.string decode) colon
      (reading forward.value fun literal => some (stringOf decode literal))).IsLocal :=
    local_couple colon (local_reading Reading.takes_string Reading.local_string _)
      (local_reading Reading.takes_value Reading.local_value _)
  exact hcouple.map fun member => member.2.map (member.1, ·)

theorem tailEntry_isLocal : (tailEntry decode).IsLocal := by
  have hcouple : (couple isJsonSpace
      (reading backward.value fun literal => some (stringOf decode literal.reverse)) colon
      (reading backward.string fun literal => decode literal.reverse)).IsLocal :=
    local_couple colon (local_reading Reading.takes_value Reading.local_value _)
      (local_reading Reading.takes_string Reading.local_string _)
  exact hcouple.map fun member => member.1.map (member.2, ·)

theorem separator_isLocal : Local separator := Local.skip (local_expect comma) (takes_expect comma) isJsonSpace

/-- What is read forward of a part of a text is read of the text. -/
theorem heads_append {l : List Byte} (h : p ∈ heads decode l) (x : List Byte) :
    p ∈ heads decode (l ++ x) := by
  unfold heads at h
  split at h
  · cases h
  · rename_i r hbrace
    have hbrace : expect braceOpen ((l ++ x).dropWhile isJsonSpace) = some (r ++ x) :=
      Local.skip (local_expect braceOpen) (takes_expect braceOpen) isJsonSpace hbrace x
    rw [heads, hbrace]
    exact entries_subset headEntry_isLocal separator_isLocal (by simp) h x

theorem tails_append {l : List Byte} (h : p ∈ tails decode l) (x : List Byte) :
    p ∈ tails decode (l ++ x) := by
  unfold tails at h
  split at h
  · cases h
  · rename_i r hbrace
    have hbrace : expect braceClose ((l ++ x).dropWhile isJsonSpace) = some (r ++ x) :=
      Local.skip (local_expect braceClose) (takes_expect braceClose) isJsonSpace hbrace x
    rw [tails, hbrace]
    exact entries_subset tailEntry_isLocal separator_isLocal (by simp) h x

theorem hasString_of_mem {ms : List MemberText} (hms : ∀ m ∈ ms, m ∈ o.members)
    (h : p ∈ ms.flatMap MemberText.found) : o.HasString p := by
  obtain ⟨m, hm, hp⟩ := List.mem_flatMap.mp h
  exact ⟨m, hms m hm, MemberText.mem_found.mp hp⟩

theorem heads_sound (h : o.DecodedBy decode) (k : Nat) (hp : p ∈ heads decode (o.bytes.take k)) :
    o.HasString p := by
  have hmem := heads_append hp (o.bytes.drop k)
  rw [List.take_append_drop, heads_eq h] at hmem
  exact hasString_of_mem (fun m hm => hm) hmem

theorem tails_sound (h : o.DecodedBy decode) (k : Nat) (hp : p ∈ tails decode (o.bytes.drop k).reverse) :
    o.HasString p := by
  have hmem := tails_append hp (o.bytes.take k).reverse
  rw [← List.reverse_append, List.take_append_drop, tails_eq h] at hmem
  exact hasString_of_mem (fun m hm => List.mem_reverse.mp hm) hmem

/-- A string is read whatever comes after it. -/
theorem forward_value_quote {v : List Byte} (h : Whole v) (hquote : v.head? = some quote) (y : List Byte) :
    forward.value (v ++ y) = some y := by
  cases h with
  | string h =>
    rw [value_of_quote forward rfl]
    exact forward_string h y
  | brackets ho _ _ => exact absurd (Option.some.inj hquote) (of_opens ho).1
  | word _ hw => exact absurd rfl (hw quote (List.mem_of_mem_head? hquote)).1

/-- A string member that a part has, with all that comes before, is read forward. -/
theorem heads_complete (h : o.DecodedBy decode) (hmembers : o.members = ps ++ m :: qs) {v : String}
    (hv : m.json = .string v) {k : Nat} (hk : (textBytes (o.lead ps m) ++ textBytes m.core).length ≤ k) :
    (m.name, v) ∈ heads decode (o.bytes.take k) := by
  have hdecoded : ∀ p ∈ ps ++ m :: qs, p.DecodedBy decode := by
    rw [← hmembers]
    exact h
  rw [List.forall_mem_append, List.forall_mem_cons] at hdecoded
  have hquote : (textBytes m.value).head? = some quote := (head?_spells m.hvalue m.tight).mpr (by rw [hv]; rfl)
  have hvalue : ∀ y, forward.value (textBytes m.value ++ y) = some y := forward_value_quote m.whole_value hquote
  rw [ObjectText.bytes_eq hmembers, ← List.append_assoc, List.take_append, List.take_of_length_le hk, List.append_assoc]
  obtain ⟨n, hheads⟩ := o.heads_lead hdecoded.1 m
    (textBytes m.core ++ (textBytes (o.rest m qs)).take (k - (textBytes (o.lead ps m) ++ textBytes m.core).length))
  rw [hheads]
  apply List.mem_append_right
  apply mem_entries (headEntry_member hdecoded.2.1 (hvalue _))
  rw [hv]
  exact List.mem_singleton_self _

/-- A string member that a part has, with all that comes after and a byte before it, is read backward. -/
theorem tails_complete (h : o.DecodedBy decode) (hmembers : o.members = ps ++ m :: qs) {v : String}
    (hv : m.json = .string v) {k : Nat} (hk : (textBytes m.core ++ textBytes (o.rest m qs)).length < k) :
    (m.name, v) ∈ tails decode (o.bytes.drop (o.bytes.length - k)).reverse := by
  have hdecoded : ∀ p ∈ ps ++ m :: qs, p.DecodedBy decode := by
    rw [← hmembers]
    exact h
  rw [List.forall_mem_append, List.forall_mem_cons] at hdecoded
  obtain ⟨c, r, hlead, hc⟩ := o.clean_lead ps m
  have hpos : 0 < (textBytes (o.lead ps m)).length := by
    rw [← List.length_reverse, hlead]
    exact Nat.zero_lt_succ _
  have hbytes := ObjectText.bytes_eq hmembers
  have hlen := congrArg List.length hbytes
  rw [List.length_append] at hlen
  -- the part begins within the lead
  obtain ⟨j, hj⟩ : ∃ j, o.bytes.length - k + (j + 1) = (textBytes (o.lead ps m)).length :=
    ⟨(textBytes (o.lead ps m)).length - (o.bytes.length - k) - 1, by omega⟩
  have hclean : Clean ((textBytes (o.lead ps m)).drop (o.bytes.length - k)).reverse := by
    refine ⟨c, r.take j, ?_, hc⟩
    rw [List.reverse_drop, hlead, ← hj, Nat.add_sub_cancel_left, List.take_succ_cons]
  have hpart : (o.bytes.drop (o.bytes.length - k)).reverse = (textBytes (o.rest m qs)).reverse ++
      ((textBytes m.core).reverse ++ ((textBytes (o.lead ps m)).drop (o.bytes.length - k)).reverse) := by
    rw [hbytes, List.drop_append_of_le_length (by rw [← hbytes]; omega)]
    simp
  obtain ⟨n, htails⟩ := o.tails_rest hdecoded.2.2 m
    ((textBytes m.core).reverse ++ ((textBytes (o.lead ps m)).drop (o.bytes.length - k)).reverse)
  rw [hpart, htails]
  apply List.mem_append_right
  apply mem_entries (tailEntry_member hdecoded.2.1 hclean)
  rw [hv]
  exact List.mem_singleton_self _

/-! ### The envelope -/

section
variable {U : Type} {parseStr : String → Option U}

/-- Every field comes from a member. -/
structure EnvelopeFields.From (parseStr : String → Option U) (P : String × String → Prop) (fields : EnvelopeFields U) :
    Prop where
  messageType : ∀ v, fields.messageType = some v → P ("type", v)
  invocationId : ∀ u, fields.invocationId = some u → ∃ v, parseStr v = some u ∧ P ("invocation_id", v)
  functionId : ∀ v, fields.functionId = some v → P ("function_id", v)

theorem EnvelopeFields.From.note {P : String × String → Prop} {fields : EnvelopeFields U} (h : fields.From parseStr P)
    {member : String × String} (hmember : P member) : (fields.note parseStr member).From parseStr P := by
  obtain ⟨name, v⟩ := member
  unfold EnvelopeFields.note
  split
  · rename_i hname
    obtain ⟨rfl, -⟩ := hname
    exact { h with messageType := fun w hw => Option.some.inj hw ▸ hmember }
  · split
    · rename_i hname
      obtain ⟨rfl, -⟩ := hname
      exact { h with invocationId := fun u hu => ⟨v, hu, hmember⟩ }
    · split
      · rename_i hname
        obtain ⟨rfl, -⟩ := hname
        exact { h with functionId := fun w hw => Option.some.inj hw ▸ hmember }
      · exact h

theorem EnvelopeFields.From.notes {P : String × String → Prop} {members : List (String × String)}
    (hmembers : ∀ p ∈ members, P p) {fields : EnvelopeFields U} (h : fields.From parseStr P) :
    (members.foldl (EnvelopeFields.note parseStr) fields).From parseStr P := by
  induction members generalizing fields with
  | nil => exact h
  | cons p members ih =>
    rw [List.forall_mem_cons] at hmembers
    exact ih hmembers.2 (h.note hmembers.1)

theorem envelope_eq (decode : List Byte → Option String) (o : Oversized) : o.envelope parseStr decode =
    .ok ((heads decode o.head ++ tails decode o.tail.reverse).foldl (EnvelopeFields.note parseStr)
      ⟨none, none, none⟩) := by
  rw [Oversized.envelope, headMembers_eq, tailMembers_eq]
  rfl

end

/-- A string of one letter as it is written. -/
def letter (c : Char) : List Char := ['"', c, '"']

theorem spells_letter {c : Char} (h : c ≠ '"' ∧ c ≠ '\\' ∧ 32 ≤ c.toNat) :
    SpellsString (letter c) (String.singleton c) := by
  have hchars : SpellsChars ([c] ++ []) [c] := .cons (.plain c h.1 h.2.1 h.2.2) .nil
  exact .quoted (t := [c]) (by simpa using hchars)

/-- A member of two letters. -/
def letters (left : List Char) (hleft : Space left) (k v : Char) (hk : k ≠ '"' ∧ k ≠ '\\' ∧ 32 ≤ k.toNat)
    (hv : v ≠ '"' ∧ v ≠ '\\' ∧ 32 ≤ v.toNat) : MemberText where
  name := String.singleton k
  json := .string (String.singleton v)
  left := left
  key := letter k
  middle := []
  gap := []
  value := letter v
  right := []
  hleft := hleft
  hkey := spells_letter hk
  hmiddle := nofun
  hgap := nofun
  hvalue := .string (spells_letter hv)
  tight := tight_string (spells_letter hv)
  hright := nofun

/-- The object `\x7b"a":"b", "c":"d"\x7d`. -/
def sample : ObjectText where
  before := []
  gap := []
  members := [letters [] nofun 'a' 'b' (by decide) (by decide),
    letters [' '] (by simp [Space, isSpace]) 'c' 'd' (by decide) (by decide)]
  after := []
  hbefore := nofun
  hgap := nofun
  hafter := nofun

/-- A decoder of strings of one letter. -/
def decodeLetter : List Byte → Option String
  | [34, c, 34] => some (String.singleton (Char.ofNat c.toNat))
  | _ => none

theorem sample_decoded : sample.DecodedBy decodeLetter := by
  intro m hm
  simp only [sample, List.mem_cons, List.not_mem_nil, or_false] at hm
  rcases hm with rfl | rfl
  · refine ⟨rfl, ?_⟩
    intro v hv
    cases hv
    rfl
  · refine ⟨rfl, ?_⟩
    intro v hv
    cases hv
    rfl

end Iii.Worker
