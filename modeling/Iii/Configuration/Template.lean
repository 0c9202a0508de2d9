import Iii.Json.Value
import Iii.Lib.Split
import Iii.Rbac.Pattern

/-! Expanding the templates of a configuration (`configuration/store.rs`).

A string is read from left to right: where a reference starts it is taken whole, any other
character is itself, and what is put in is not read again. The environment is what `env::var`
answers, so a variable that is not Unicode is like one that is not set. A string that is one
placeholder is read once more as YAML; that reader is a parameter, as are the numbers. -/
namespace Iii.Configuration
open Iii.Registry (isWhitespace)
open Iii.Rbac (trim trim_spec trim_between)

/-- What the pattern for references captures: the match, the name and the default. -/
structure Captures where
  whole : List Char
  name : List Char
  default : Option (List Char)

/-- `ENV_VAR_RE` at the beginning of a text, with the rest of the text. -/
def envVarAt : List Char → Option (Captures × List Char)
  | '$' :: '{' :: body =>
    match body.span fun c => c ≠ '}' && c ≠ ':' with
    | ([], _) => none
    | (name, '}' :: rest) => some (⟨'$' :: '{' :: (name ++ ['}']), name, none⟩, rest)
    | (name, ':' :: after) =>
      match after.span (· ≠ '}') with
      | (default, '}' :: rest) =>
        some (⟨'$' :: '{' :: (name ++ ':' :: (default ++ ['}'])), name, some default⟩, rest)
      | _ => none
    | _ => none
  | _ => none

/-- `LONE_PLACEHOLDER`. -/
def isLonePlaceholder (s : List Char) : Bool :=
  match trim s with
  | '$' :: '{' :: body =>
    match body.span (· ≠ '}') with
    | (_, ['}']) => true
    | _ => false
  | _ => false

def engineVersionSentinel : String := "__III_ENGINE_VERSION__"

section Expand
variable (version : String) (lookup : String → Option String)

/-- What `expand_leaf` puts in for a match, and the names that are missing then. -/
def substitute (caps : Captures) (missing : List String) : List Char × List String :=
  match lookup (String.ofList caps.name) with
  | some value => (value.toList, missing)
  | none =>
    match caps.default with
    | some default =>
      if String.ofList default = engineVersionSentinel then (version.toList, missing) else (default, missing)
    | none => (caps.whole, missing ++ [String.ofList caps.name])

/-- `replace_all`; `rounds` bounds the length of the text. -/
def replaceAll : (rounds : Nat) → List Char → List String → List Char × List String
  | 0, text, missing => (text, missing)
  | _ + 1, [], missing => ([], missing)
  | rounds + 1, c :: text, missing =>
    match envVarAt (c :: text) with
    | some (caps, rest) =>
      let replaced := substitute version lookup caps missing
      let after := replaceAll rounds rest replaced.2
      (replaced.1 ++ after.1, after.2)
    | none =>
      let after := replaceAll rounds text missing
      (c :: after.1, after.2)

def expandLeaf (s : String) (missing : List String) : String × List String :=
  let replaced := replaceAll version lookup s.toList.length s.toList missing
  (String.ofList replaced.1, replaced.2)

variable {N : Type} (fromYaml : String → Option (Json String N))

def expandString (s : String) (missing : List String) : Json String N × List String :=
  let substituted := expandLeaf version lookup s missing
  if isLonePlaceholder s.toList then
    let trimmed := trim substituted.1.toList
    if trimmed.isEmpty then (.string substituted.1, substituted.2)
    else
      match fromYaml (String.ofList trimmed) with
      | some parsed => (parsed, substituted.2)
      | none => (.string substituted.1, substituted.2)
  else (.string substituted.1, substituted.2)

mutual
def expandValueInner (missing : List String) : Json String N → Json String N × List String
  | .string s => expandString version lookup fromYaml s missing
  | .array items =>
    let expanded := expandItems missing items
    (.array expanded.1, expanded.2)
  | .object members =>
    let expanded := expandMembers missing members
    (.object expanded.1, expanded.2)
  | v => (v, missing)
def expandItems (missing : List String) : List (Json String N) → List (Json String N) × List String
  | [] => ([], missing)
  | v :: rest =>
    let first := expandValueInner missing v
    let after := expandItems first.2 rest
    (first.1 :: after.1, after.2)
def expandMembers (missing : List String) :
    List (String × Json String N) → List (String × Json String N) × List String
  | [] => ([], missing)
  | (key, v) :: rest =>
    let first := expandValueInner missing v
    let after := expandMembers first.2 rest
    ((key, first.1) :: after.1, after.2)
end

def expandValue (v : Json String N) : Json String N × List String :=
  expandValueInner version lookup fromYaml [] v

end Expand

/-! ### References -/

/-- `${NAME}` or `${NAME:default}`. -/
structure Reference where
  name : List Char
  default : Option (List Char)
  named : name ≠ [] ∧ '}' ∉ name ∧ ':' ∉ name
  closed : ∀ d, default = some d → '}' ∉ d

namespace Reference

def spelling (r : Reference) : List Char :=
  '$' :: '{' :: (r.name ++ (r.default.elim [] fun d => ':' :: d) ++ ['}'])

def captures (r : Reference) : Captures := ⟨r.spelling, r.name, r.default⟩

/-- The variable, or else the default, or else what is written. -/
def value (version : String) (lookup : String → Option String) (r : Reference) : List Char :=
  match lookup (String.ofList r.name), r.default with
  | some value, _ => value.toList
  | none, some d => if String.ofList d = engineVersionSentinel then version.toList else d
  | none, none => r.spelling

/-- The name, where neither is there. -/
def missing (lookup : String → Option String) (r : Reference) : Option String :=
  match lookup (String.ofList r.name), r.default with
  | none, none => some (String.ofList r.name)
  | _, _ => none

end Reference

theorem span_name {name : List Char} (h : '}' ∉ name ∧ ':' ∉ name) {c : Char} (hc : c = '}' ∨ c = ':') (rest : List Char) :
    (name ++ c :: rest).span (fun c => c ≠ '}' && c ≠ ':') = (name, c :: rest) := by
  have hname : ∀ a ∈ name, (a ≠ '}' && a ≠ ':') = true := by
    intro a ha
    have hbrace : a ≠ '}' := ne_of_mem_of_not_mem ha h.1
    have hcolon : a ≠ ':' := ne_of_mem_of_not_mem ha h.2
    simp [hbrace, hcolon]
  rw [List.span_eq_takeWhile_dropWhile, List.takeWhile_append_of_pos hname, List.dropWhile_append_of_pos hname]
  rcases hc with rfl | rfl <;> simp

theorem envVarAt_spelling (r : Reference) (rest : List Char) : envVarAt (r.spelling ++ rest) = some (r.captures, rest) := by
  obtain ⟨name, default, ⟨hne, hname⟩, hclosed⟩ := r
  cases default with
  | none =>
    have hshape : '$' :: '{' :: (name ++ [] ++ ['}']) ++ rest = '$' :: '{' :: (name ++ '}' :: rest) := by simp
    simp only [Reference.spelling, Reference.captures, Option.elim_none, hshape]
    rw [envVarAt, span_name hname (.inl rfl) rest, List.append_nil]
    cases name with
    | nil => exact absurd rfl hne
    | cons c name => rfl
  | some d =>
    have hshape : '$' :: '{' :: (name ++ ':' :: d ++ ['}']) ++ rest = '$' :: '{' :: (name ++ ':' :: (d ++ '}' :: rest)) := by
      simp
    have hspelling : '$' :: '{' :: (name ++ ':' :: d ++ ['}']) = '$' :: '{' :: (name ++ ':' :: (d ++ ['}'])) := by simp
    simp only [Reference.spelling, Reference.captures, Option.elim_some, hshape]
    rw [envVarAt, span_name hname (.inr rfl) _, hspelling]
    cases name with
    | nil => exact absurd rfl hne
    | cons c name =>
      simp only [Lib.span_ne_append (hclosed d rfl) rest]

/-- The pattern matches nowhere but where a reference is written. -/
theorem exists_of_envVarAt {s rest : List Char} {caps : Captures} (h : envVarAt s = some (caps, rest)) :
    ∃ r : Reference, caps = r.captures ∧ s = r.spelling ++ rest := by
  unfold envVarAt at h
  split at h
  · rename_i body
    have hname : ∀ name after, body.span (fun c => c ≠ '}' && c ≠ ':') = (name, after) →
        body = name ++ after ∧ '}' ∉ name ∧ ':' ∉ name := by
      intro name after hspan
      rw [List.span_eq_takeWhile_dropWhile] at hspan
      cases hspan
      refine ⟨List.takeWhile_append_dropWhile.symm, fun hmem => ?_, fun hmem => ?_⟩
      · simpa using List.mem_takeWhile_imp hmem
      · simpa using List.mem_takeWhile_imp hmem
    split at h
    · cases h
    · rename_i name after hne hspan
      cases h
      obtain ⟨rfl, hbrace, hcolon⟩ := hname _ _ hspan
      refine ⟨⟨name, none, ⟨hne, hbrace, hcolon⟩, nofun⟩, ?_, ?_⟩
      · simp [Reference.captures, Reference.spelling]
      · simp [Reference.spelling]
    · rename_i name after hne hspan
      obtain ⟨rfl, hbrace, hcolon⟩ := hname _ _ hspan
      split at h
      · rename_i default after' hspan'
        cases h
        rw [List.span_eq_takeWhile_dropWhile] at hspan'
        obtain ⟨htake, hdrop⟩ := Prod.mk.inj hspan'
        have hdefault : '}' ∉ default := by
          rw [← htake]
          intro hmem
          simpa using List.mem_takeWhile_imp hmem
        have hafter : after = default ++ '}' :: rest := by
          rw [← htake, ← hdrop, List.takeWhile_append_dropWhile]
        refine ⟨⟨name, some default, ⟨hne, hbrace, hcolon⟩,
          fun d hd => by cases hd; exact hdefault⟩, ?_, ?_⟩
        · simp [Reference.captures, Reference.spelling]
        · simp [Reference.spelling, hafter]
      · cases h
    · cases h
  · cases h

/-! ### The reading of a string -/

inductive Piece where
  | char (c : Char)
  | reference (r : Reference)

/-- The reading from left to right: a reference is taken where one starts. -/
inductive Reads : List Char → List Piece → Prop where
  | done : Reads [] []
  | char {c : Char} {rest : List Char} {pieces : List Piece} (hnone : ∀ r after, c :: rest ≠ Reference.spelling r ++ after)
      (h : Reads rest pieces) : Reads (c :: rest) (.char c :: pieces)
  | reference {r : Reference} {rest : List Char} {pieces : List Piece} (h : Reads rest pieces) :
      Reads (r.spelling ++ rest) (.reference r :: pieces)

def replacedBy (version : String) (lookup : String → Option String) : List Piece → List Char
  | [] => []
  | .char c :: rest => c :: replacedBy version lookup rest
  | .reference r :: rest => r.value version lookup ++ replacedBy version lookup rest

def missingOf (lookup : String → Option String) : List Piece → List String
  | [] => []
  | .char _ :: rest => missingOf lookup rest
  | .reference r :: rest => (r.missing lookup).toList ++ missingOf lookup rest

theorem captures_injective {r r' : Reference} (h : r.captures = r'.captures) : r = r' := by
  have hname : r.name = r'.name := congrArg Captures.name h
  have hdefault : r.default = r'.default := congrArg Captures.default h
  cases r
  cases r'
  cases hname
  cases hdefault
  rfl

/-- A reference is not written in two ways. -/
theorem spelling_append_inj {r r' : Reference} {rest rest' : List Char} (h : r.spelling ++ rest = r'.spelling ++ rest') :
    r = r' ∧ rest = rest' := by
  have hsame := (envVarAt_spelling r rest).symm.trans (h ▸ envVarAt_spelling r' rest')
  obtain ⟨hcaptures, hrest⟩ := Prod.mk.inj (Option.some.inj hsame)
  exact ⟨captures_injective hcaptures, hrest⟩

theorem envVarAt_eq_none {s : List Char} : envVarAt s = none ↔ ∀ r after, s ≠ Reference.spelling r ++ after := by
  constructor
  · rintro h r after rfl
    rw [envVarAt_spelling] at h
    cases h
  · intro h
    cases hat : envVarAt s with
    | none => rfl
    | some found =>
      obtain ⟨r, -, hs⟩ := exists_of_envVarAt hat
      exact absurd hs (h r found.2)

theorem Reads.unique {s : List Char} {pieces pieces' : List Piece} (h : Reads s pieces) (h' : Reads s pieces') :
    pieces = pieces' := by
  induction h generalizing pieces' with
  | done =>
    generalize hs : ([] : List Char) = s at h'
    cases h' with
    | done => rfl
    | char hnone h' => cases hs
    | reference h' => cases hs
  | @char c rest pieces hnone h ih =>
    generalize hs : c :: rest = s at h'
    cases h' with
    | done => cases hs
    | char hnone' h' =>
      cases hs
      rw [ih h']
    | reference h' => exact absurd hs (hnone _ _)
  | @reference r rest pieces h ih =>
    generalize hs : r.spelling ++ rest = s at h'
    cases h' with
    | done => cases hs
    | char hnone' h' => exact absurd hs.symm (hnone' _ _)
    | reference h' =>
      obtain ⟨rfl, rfl⟩ := spelling_append_inj hs
      rw [ih h']

section Strings
variable {version : String} {lookup : String → Option String}

theorem substitute_eq (r : Reference) (missing : List String) : substitute version lookup r.captures missing =
    (r.value version lookup, missing ++ (r.missing lookup).toList) := by
  cases hlookup : lookup (String.ofList r.name) with
  | some value => simp [substitute, Reference.captures, Reference.value, Reference.missing, hlookup]
  | none =>
    cases hdefault : r.default with
    | none => simp [substitute, Reference.captures, Reference.value, Reference.missing, hlookup, hdefault]
    | some d =>
      by_cases hversion : String.ofList d = engineVersionSentinel
      · simp [substitute, Reference.captures, Reference.value, Reference.missing, hlookup, hdefault, hversion]
      · simp [substitute, Reference.captures, Reference.value, Reference.missing, hlookup, hdefault, hversion]

/-- The text is read, and replaced piece by piece. -/
theorem replaceAll_reads (version : String) (lookup : String → Option String) (rounds : Nat) (text : List Char) (hrounds : text.length ≤ rounds) (missing : List String) :
    ∃ pieces, Reads text pieces ∧ replaceAll version lookup rounds text missing =
      (replacedBy version lookup pieces, missing ++ missingOf lookup pieces) := by
  induction rounds generalizing text missing with
  | zero =>
    obtain rfl : text = [] := List.length_eq_zero_iff.mp (Nat.le_zero.mp hrounds)
    exact ⟨[], .done, by simp [replaceAll, replacedBy, missingOf]⟩
  | succ rounds ih =>
    cases text with
    | nil => exact ⟨[], .done, by simp [replaceAll, replacedBy, missingOf]⟩
    | cons c text =>
      rw [replaceAll]
      cases hat : envVarAt (c :: text) with
      | none =>
        obtain ⟨pieces, hreads, hreplaced⟩ := ih text (Nat.le_of_succ_le_succ hrounds) missing
        refine ⟨.char c :: pieces, .char (envVarAt_eq_none.mp hat) hreads, ?_⟩
        simp only [hreplaced]
        rfl
      | some found =>
        obtain ⟨caps, rest⟩ := found
        obtain ⟨r, rfl, hs⟩ := exists_of_envVarAt hat
        have hshort : rest.length ≤ rounds := by
          have hlength := congrArg List.length hs
          simp only [Reference.spelling, List.length_cons, List.length_append] at hlength hrounds
          omega
        obtain ⟨pieces, hreads, hreplaced⟩ := ih rest hshort (missing ++ (r.missing lookup).toList)
        refine ⟨.reference r :: pieces, hs ▸ .reference hreads, ?_⟩
        simp only [substitute_eq, hreplaced]
        rw [replacedBy, missingOf, List.append_assoc]

/-- One placeholder, with white space around it. -/
def Lone (s : List Char) : Prop :=
  ∃ l body r, (∀ c ∈ l, isWhitespace c = true) ∧ (∀ c ∈ r, isWhitespace c = true) ∧ '}' ∉ body ∧
    s = l ++ '$' :: '{' :: (body ++ ['}']) ++ r

theorem isLonePlaceholder_iff (s : List Char) : isLonePlaceholder s = true ↔ Lone s := by
  constructor
  · intro h
    obtain ⟨l, r, hl, hr, hs⟩ := trim_spec s
    unfold isLonePlaceholder at h
    split at h
    · rename_i body htrim
      split at h
      · rename_i inner hspan
        rw [List.span_eq_takeWhile_dropWhile] at hspan
        obtain ⟨htake, hdrop⟩ := Prod.mk.inj hspan
        refine ⟨l, inner, r, hl, hr, ?_, ?_⟩
        · rw [← htake]
          intro hmem
          simpa using List.mem_takeWhile_imp hmem
        · rw [← htake, ← hdrop, List.takeWhile_append_dropWhile, ← htrim]
          exact hs
      · cases h
    · cases h
  · rintro ⟨l, body, r, hl, hr, hbody, rfl⟩
    have htrim : trim (l ++ '$' :: '{' :: (body ++ ['}']) ++ r) = '$' :: '{' :: (body ++ ['}']) := by
      refine trim_between (List.cons_ne_nil _ _) hl hr (fun c hc => ?_) fun c hc => ?_
      · cases hc
        decide
      · have hlast : ('$' :: '{' :: (body ++ ['}'])).getLast? = some '}' := by
          rw [show '$' :: '{' :: (body ++ ['}']) = ('$' :: '{' :: body) ++ ['}'] from rfl]
          exact List.getLast?_concat
        rw [hlast] at hc
        cases hc
        decide
    rw [isLonePlaceholder, htrim]
    simp only [Lib.span_ne_append hbody []]

end Strings

/-! ### The expansion of a value -/

section Values
variable {N : Type} (version : String) (lookup : String → Option String) (fromYaml : String → Option (Json String N))

def IsScalar : Json String N → Prop
  | .array _ => False
  | .object _ => False
  | _ => True

/-- What becomes of a string that was replaced by `text`. A placeholder that YAML reads as a list or
a mapping is left open. -/
structure BecomesLeaf (s text : List Char) (w : Json String N) : Prop where
  embedded : ¬ Lone s → w = .string (String.ofList text)
  blank : Lone s → trim text = [] → w = .string (String.ofList text)
  unread : Lone s → fromYaml (String.ofList (trim text)) = none → w = .string (String.ofList text)
  scalar : Lone s → trim text ≠ [] → ∀ y, fromYaml (String.ofList (trim text)) = some y → IsScalar y → w = y

mutual
/-- `w` is `v` with its strings expanded, one by one; `names` are those with neither a variable nor
a default, at each place where they stand. -/
inductive Expands : (v w : Json String N) → (names : List String) → Prop where
  | null : Expands .null .null []
  | bool (b : Bool) : Expands (.bool b) (.bool b) []
  | number (n : N) : Expands (.number n) (.number n) []
  | string {s : String} {pieces : List Piece} {w : Json String N} (hreads : Reads s.toList pieces)
      (hw : BecomesLeaf fromYaml s.toList (replacedBy version lookup pieces) w) :
      Expands (.string s) w (missingOf lookup pieces)
  | array {items items' : List (Json String N)} {names : List String} (h : ExpandsItems items items' names) :
      Expands (.array items) (.array items') names
  | object {members members' : List (String × Json String N)} {names : List String}
      (h : ExpandsMembers members members' names) : Expands (.object members) (.object members') names
inductive ExpandsItems : (items items' : List (Json String N)) → (names : List String) → Prop where
  | nil : ExpandsItems [] [] []
  | cons {v w : Json String N} {rest rest' : List (Json String N)} {names names' : List String}
      (hv : Expands v w names) (hrest : ExpandsItems rest rest' names') :
      ExpandsItems (v :: rest) (w :: rest') (names ++ names')
inductive ExpandsMembers : (members members' : List (String × Json String N)) → (names : List String) → Prop where
  | nil : ExpandsMembers [] [] []
  | cons {key : String} {v w : Json String N} {rest rest' : List (String × Json String N)} {names names' : List String}
      (hv : Expands v w names) (hrest : ExpandsMembers rest rest' names') :
      ExpandsMembers ((key, v) :: rest) ((key, w) :: rest') (names ++ names')
end

theorem expandString_spec (s : String) (missing : List String) : ∃ pieces, Reads s.toList pieces ∧
    BecomesLeaf fromYaml s.toList (replacedBy version lookup pieces)
      (expandString version lookup fromYaml s missing).1 ∧
    (expandString version lookup fromYaml s missing).2 = missing ++ missingOf lookup pieces := by
  obtain ⟨pieces, hreads, hreplaced⟩ := replaceAll_reads version lookup s.toList.length s.toList le_rfl missing
  have hleaf : expandLeaf version lookup s missing =
      (String.ofList (replacedBy version lookup pieces), missing ++ missingOf lookup pieces) := by
    rw [expandLeaf, hreplaced]
  refine ⟨pieces, hreads, ?_⟩
  rw [expandString, hleaf]
  simp only [String.toList_ofList]
  split
  · rename_i hlone
    replace hlone := (isLonePlaceholder_iff _).mp hlone
    split
    · rename_i hblank
      have hnil := List.isEmpty_iff.mp hblank
      exact ⟨⟨fun h => absurd hlone h, fun _ _ => rfl, fun _ _ => rfl, fun _ hne => absurd hnil hne⟩, rfl⟩
    · rename_i hblank
      have hne : trim (replacedBy version lookup pieces) ≠ [] := fun hnil => hblank (List.isEmpty_iff.mpr hnil)
      cases hyaml : fromYaml (String.ofList (trim (replacedBy version lookup pieces))) with
      | none =>
        refine ⟨⟨fun h => absurd hlone h, fun _ hnil => absurd hnil hne, fun _ _ => rfl, fun _ _ y hy => ?_⟩, rfl⟩
        rw [hyaml] at hy
        cases hy
      | some parsed =>
        refine ⟨⟨fun h => absurd hlone h, fun _ hnil => absurd hnil hne, fun _ hnone => ?_, fun _ _ y hy _ => ?_⟩, rfl⟩
        · rw [hyaml] at hnone
          cases hnone
        · rw [hyaml] at hy
          exact Option.some.inj hy
  · rename_i hlone
    have hnot : ¬ Lone s.toList := fun h => hlone ((isLonePlaceholder_iff _).mpr h)
    exact ⟨⟨fun _ => rfl, fun h => absurd h hnot, fun h => absurd h hnot, fun h => absurd h hnot⟩, rfl⟩

theorem expandValueInner_spec (v : Json String N) (missing : List String) :
    ∃ names, Expands version lookup fromYaml v (expandValueInner version lookup fromYaml missing v).1 names ∧
      (expandValueInner version lookup fromYaml missing v).2 = missing ++ names := by
  induction v using Json.ind generalizing missing with
  | null => exact ⟨[], .null, by simp [expandValueInner]⟩
  | bool b => exact ⟨[], .bool b, by simp [expandValueInner]⟩
  | number n => exact ⟨[], .number n, by simp [expandValueInner]⟩
  | string s =>
    obtain ⟨pieces, hreads, hleaf, hmissing⟩ := expandString_spec version lookup fromYaml s missing
    exact ⟨_, .string hreads hleaf, hmissing⟩
  | array items ih =>
    have hitems : ∃ names, ExpandsItems version lookup fromYaml items
        (expandItems version lookup fromYaml missing items).1 names ∧
        (expandItems version lookup fromYaml missing items).2 = missing ++ names := by
      induction items generalizing missing with
      | nil => exact ⟨[], .nil, by simp [expandItems]⟩
      | cons v rest ihrest =>
        obtain ⟨names, hv, hmissing⟩ := ih v List.mem_cons_self missing
        obtain ⟨names', hrest, hmissing'⟩ := ihrest (fun w hw => ih w (List.mem_cons_of_mem _ hw))
          (expandValueInner version lookup fromYaml missing v).2
        exact ⟨names ++ names', .cons hv hrest, by rw [expandItems, hmissing', hmissing, List.append_assoc]⟩
    obtain ⟨names, hitems, hmissing⟩ := hitems
    exact ⟨names, .array hitems, hmissing⟩
  | object members ih =>
    have hmembers : ∃ names, ExpandsMembers version lookup fromYaml members
        (expandMembers version lookup fromYaml missing members).1 names ∧
        (expandMembers version lookup fromYaml missing members).2 = missing ++ names := by
      induction members generalizing missing with
      | nil => exact ⟨[], .nil, by simp [expandMembers]⟩
      | cons m rest ihrest =>
        obtain ⟨names, hv, hmissing⟩ := ih m List.mem_cons_self missing
        obtain ⟨names', hrest, hmissing'⟩ := ihrest (fun w hw => ih w (List.mem_cons_of_mem _ hw))
          (expandValueInner version lookup fromYaml missing m.2).2
        exact ⟨names ++ names', .cons hv hrest, by rw [expandMembers, hmissing', hmissing, List.append_assoc]⟩
    obtain ⟨names, hmembers, hmissing⟩ := hmembers
    exact ⟨names, .object hmembers, hmissing⟩

/-- Templates are expanded leaf by leaf, in one reading of each. -/
theorem templates_expand (version : String) (lookup : String → Option String)
    (fromYaml : String → Option (Json String N)) (v : Json String N) :
    (∀ s, ∃ pieces, Reads s pieces ∧ ∀ pieces', Reads s pieces' → pieces' = pieces) ∧
    ∃ names, Expands version lookup fromYaml v (expandValue version lookup fromYaml v).1 names ∧
      (expandValue version lookup fromYaml v).2.eraseDups = names.eraseDups ∧
      ((expandValue version lookup fromYaml v).2 = [] ↔ names = []) := by
  refine ⟨fun s => ?_, ?_⟩
  · obtain ⟨pieces, hreads, -⟩ := replaceAll_reads version lookup s.length s le_rfl []
    exact ⟨pieces, hreads, fun pieces' h => h.unique hreads⟩
  · obtain ⟨names, hexpands, hmissing⟩ := expandValueInner_spec version lookup fromYaml v []
    rw [expandValue, hmissing, List.nil_append]
    exact ⟨names, hexpands, rfl, Iff.rfl⟩

end Values

/-! ### A default that is not put in -/

/-- A leaf as the template alone has it, without the engine's own default. -/
def AsWritten (lookup : String → Option String) (s : String) (w : Json String Nat) : Prop :=
  ∀ r : Reference, s.toList = r.spelling →
    w = .string ((lookup (String.ofList r.name)).getD (String.ofList (r.default.getD r.spelling))) ∨
      (∃ n, w = .number n) ∨ (∃ b, w = .bool b) ∨ w = .null

/-- `${V:__III_ENGINE_VERSION__}`. -/
def versionReference : Reference where
  name := ['V']
  default := some engineVersionSentinel.toList
  named := by decide
  closed d hd := by
    rw [← Option.some.inj hd]
    decide

theorem sentinel_not_put_in : ¬ AsWritten (fun _ => none) (String.ofList versionReference.spelling)
    (expandValue "1" (fun _ => none) (fun text => some (.string text))
      (.string (String.ofList versionReference.spelling))).1 := by
  have hreads : Reads (String.ofList versionReference.spelling).toList [.reference versionReference] := by
    rw [String.toList_ofList, ← List.append_nil versionReference.spelling]
    exact .reference .done
  obtain ⟨pieces, hreads', hleaf, -⟩ := expandString_spec (N := Nat) "1" (fun _ => none)
    (fun text => some (.string text)) (String.ofList versionReference.spelling) []
  have hvalue : replacedBy "1" (fun _ => none) pieces = "1".toList := by
    rw [hreads'.unique hreads]
    simp [replacedBy, Reference.value, versionReference]
  have hlone : Lone (String.ofList versionReference.spelling).toList := by
    rw [String.toList_ofList]
    exact ⟨[], 'V' :: ':' :: engineVersionSentinel.toList, [], nofun, nofun, by decide, by
      simp [Reference.spelling, versionReference]⟩
  have hexpanded := hleaf.scalar hlone (by rw [hvalue]; decide) _ rfl trivial
  intro h
  rcases h versionReference String.toList_ofList with hstring | ⟨n, hn⟩ | ⟨b, hb⟩ | hnull
  · rw [expandValue, expandValueInner, hexpanded, hvalue] at hstring
    revert hstring
    simp [versionReference, engineVersionSentinel]
    decide
  · rw [expandValue, expandValueInner, hexpanded] at hn
    cases hn
  · rw [expandValue, expandValueInner, hexpanded] at hb
    cases hb
  · rw [expandValue, expandValueInner, hexpanded] at hnull
    cases hnull

end Iii.Configuration
