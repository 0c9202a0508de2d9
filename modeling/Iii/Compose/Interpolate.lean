import Iii.Lib.Split
import Iii.Rbac.Pattern

/-! References to the environment in a compose file (`iii-compose`, `interpolate.rs`).

A string is read once from left to right. `$$` is a dollar, `${NAME}` and `${NAME:-default}` are
replaced, any other dollar is itself, and what was put in is not read again. The document is
walked after it was parsed, so that the blocks that compose only carries can be left alone: what
is under a `config_override`, and the `workers` of the engine. The numbers of the document are a
parameter. -/
namespace Iii.Compose
open Lib
open Iii.Registry (isWhitespace)
open Iii.Rbac (trim trim_spec trim_between)

inductive InterpolationError where
  | unterminatedReference (path reference : String)
  | invalidReference (path name : String)
  | undefinedVariable (path name : String)
deriving DecidableEq

/-! ### Strings -/

/-- What a shell would accept as a variable name. -/
def isEnvName : List Char → Bool
  | [] => false
  | c :: rest => (c.isAlpha || c = '_') && rest.all fun c => c.isAlphanum || c = '_'

/-- The first line, without its end, and at most 40 characters of it. -/
def preview (rest : List Char) : String :=
  let line :=
    match rest.span (· ≠ '\n') with
    | (line, []) => line
    | (line, _ :: _) => if line.getLast? = some '\r' then line.dropLast else line
  String.ofList (line.take 40)

section Strings
variable (path : String) (lookup : String → Option String)

/-- `resolve`: one `${...}` body, a name and optionally `:-` and a default. -/
def resolveBody (body : List Char) : Except InterpolationError (List Char) :=
  let (name, default) :=
    match splitPair ':' '-' body with
    | some (name, default) => (trim name, some default)
    | none => (trim body, none)
  if name.isEmpty || !isEnvName name then .error (.invalidReference path (String.ofList body))
  else
    match lookup (String.ofList name) with
    | some value => .ok value.toList
    | none =>
      match default with
      | some default => .ok default
      | none => .error (.undefinedVariable path (String.ofList name))

/-- The `while let` of `expand`; `rounds` bounds its turns. -/
def expandLoop : (rounds : Nat) → (rest out : List Char) → Except InterpolationError (List Char)
  | 0, rest, out => .ok (out ++ rest)
  | rounds + 1, rest, out =>
    match rest.span (· ≠ '$') with
    | (before, '$' :: '$' :: after) => expandLoop rounds after (out ++ before ++ ['$'])
    | (before, '$' :: '{' :: after) =>
      match after.span (· ≠ '}') with
      | (_, []) => .error (.unterminatedReference path (preview ('$' :: '{' :: after)))
      | (body, _ :: remainder) => do
        let value ← resolveBody path lookup body
        expandLoop rounds remainder (out ++ before ++ value)
    | (before, _ :: after) => expandLoop rounds after (out ++ before ++ ['$'])
    | (_, []) => .ok (out ++ rest)

theorem expandLoop_zero (rest out : List Char) : expandLoop path lookup 0 rest out = .ok (out ++ rest) := by
  rw [expandLoop]

def expandList (text : List Char) : Except InterpolationError (List Char) :=
  expandLoop path lookup text.length text []

def expand (text : String) : Except InterpolationError String :=
  (expandList path lookup text.toList).map String.ofList

end Strings

/-! ### The grammar -/

/-- What may stand between the braces: a name with white space around it, and perhaps a default. -/
def Refers (body name : List Char) (default : Option (List Char)) : Prop :=
  isEnvName name = true ∧ ∃ l r, (∀ c ∈ l, isWhitespace c = true) ∧ (∀ c ∈ r, isWhitespace c = true) ∧
    body = l ++ name ++ r ++ default.elim [] fun default => ':' :: '-' :: default

/-- The left-to-right reading of a text, with what it comes to. -/
inductive Reads (path : String) (lookup : String → Option String) :
    List Char → Except InterpolationError (List Char) → Prop where
  | done : Reads path lookup [] (.ok [])
  | plain {c : Char} {rest : List Char} {result : Except InterpolationError (List Char)} (hc : c ≠ '$')
      (h : Reads path lookup rest result) : Reads path lookup (c :: rest) (result.map (c :: ·))
  | dollar {rest : List Char} {result : Except InterpolationError (List Char)}
      (h : Reads path lookup rest result) : Reads path lookup ('$' :: '$' :: rest) (result.map ('$' :: ·))
  | bare {rest : List Char} {result : Except InterpolationError (List Char)}
      (hdollar : rest.head? ≠ some '$') (hbrace : rest.head? ≠ some '{')
      (h : Reads path lookup rest result) : Reads path lookup ('$' :: rest) (result.map ('$' :: ·))
  | value {body name rest : List Char} {default : Option (List Char)} {value : List Char}
      {result : Except InterpolationError (List Char)} (hclosed : '}' ∉ body) (hbody : Refers body name default)
      (hvalue : ((lookup (String.ofList name)).map String.toList).or default = some value)
      (h : Reads path lookup rest result) :
      Reads path lookup ('$' :: '{' :: (body ++ '}' :: rest)) (result.map (value ++ ·))
  | undefined {body name rest : List Char} (hclosed : '}' ∉ body) (hbody : Refers body name none)
      (hvalue : lookup (String.ofList name) = none) :
      Reads path lookup ('$' :: '{' :: (body ++ '}' :: rest)) (.error (.undefinedVariable path (String.ofList name)))
  | invalid {body rest : List Char} (hclosed : '}' ∉ body) (hbody : ∀ name default, ¬ Refers body name default) :
      Reads path lookup ('$' :: '{' :: (body ++ '}' :: rest)) (.error (.invalidReference path (String.ofList body)))
  | unterminated {rest : List Char} (hopen : '}' ∉ rest) :
      Reads path lookup ('$' :: '{' :: rest) (.error (.unterminatedReference path (preview ('$' :: '{' :: rest))))

/-! ### References -/

theorem not_isWhitespace_of_name {c : Char} (h : (c.isAlphanum || c = '_') = true) : isWhitespace c = false := by
  have hn : (65 ≤ c.toNat ∧ c.toNat ≤ 90) ∨ (97 ≤ c.toNat ∧ c.toNat ≤ 122) ∨ (48 ≤ c.toNat ∧ c.toNat ≤ 57) ∨
      c.toNat = 95 := by
    replace h : (((c.val ≥ 'A'.val ∧ c.val ≤ 'Z'.val : Bool) || (c.val ≥ 'a'.val && c.val ≤ 'z'.val)) ||
        (c.val ≥ '0'.val && c.val ≤ '9'.val) || c = '_') = true := h
    simp only [Bool.or_eq_true, Bool.and_eq_true, decide_eq_true_eq] at h
    rcases h with ((h | h) | h) | rfl
    · exact .inl h
    · exact .inr (.inl h)
    · exact .inr (.inr (.inl h))
    · exact .inr (.inr (.inr rfl))
  simp only [isWhitespace, List.contains_cons, List.contains_nil, Bool.or_eq_false_iff, Bool.and_eq_false_iff,
    decide_eq_false_iff_not, beq_eq_false_iff_ne, Bool.or_false]
  omega

theorem isEnvName_chars {name : List Char} (h : isEnvName name = true) :
    name ≠ [] ∧ ∀ c ∈ name, (c.isAlphanum || c = '_') = true := by
  cases name with
  | nil => cases h
  | cons first rest =>
    refine ⟨List.cons_ne_nil _ _, ?_⟩
    obtain ⟨hfirst, hrest⟩ := Bool.and_eq_true_iff.mp h
    intro c hc
    rcases List.mem_cons.mp hc with rfl | hc
    · rcases Bool.or_eq_true_iff.mp hfirst with halpha | hunder
      · simp [Char.isAlphanum, halpha]
      · rw [hunder, Bool.or_true]
    · exact List.all_eq_true.mp hrest c hc

theorem trim_name {l name r : List Char} (hname : isEnvName name = true) (hl : ∀ c ∈ l, isWhitespace c = true)
    (hr : ∀ c ∈ r, isWhitespace c = true) : trim (l ++ name ++ r) = name := by
  obtain ⟨hne, hchars⟩ := isEnvName_chars hname
  exact trim_between hne hl hr (fun c hc => not_isWhitespace_of_name (hchars c (List.mem_of_head? hc)))
    fun c hc => not_isWhitespace_of_name (hchars c (List.mem_of_getLast? hc))

/-- The name and the default that the code takes from a body. -/
def cutBody (body : List Char) : List Char × Option (List Char) :=
  match splitPair ':' '-' body with
  | some (name, default) => (trim name, some default)
  | none => (trim body, none)

theorem colon_not_mem {l name r : List Char} (hname : isEnvName name = true)
    (hl : ∀ c ∈ l, isWhitespace c = true) (hr : ∀ c ∈ r, isWhitespace c = true) : ':' ∉ l ++ name ++ r := by
  simp only [List.mem_append, not_or]
  refine ⟨⟨fun h => ?_, fun h => ?_⟩, fun h => ?_⟩
  · exact absurd (hl _ h) (by decide)
  · exact absurd ((isEnvName_chars hname).2 _ h) (by decide)
  · exact absurd (hr _ h) (by decide)

/-- The grammar of bodies is unambiguous, and the code reads it. -/
theorem refers_iff {body name : List Char} {default : Option (List Char)} :
    Refers body name default ↔ cutBody body = (name, default) ∧ isEnvName name = true := by
  constructor
  · rintro ⟨hname, l, r, hl, hr, rfl⟩
    refine ⟨?_, hname⟩
    have hcolon := colon_not_mem hname hl hr
    cases default with
    | none =>
      simp only [Option.elim_none, List.append_nil]
      rw [cutBody, splitPair_of_not_mem hcolon, trim_name hname hl hr]
    | some default =>
      simp only [Option.elim_some]
      rw [cutBody, splitPair_append hcolon]
      exact congrArg (·, some default) (trim_name hname hl hr)
  · rintro ⟨hcut, hname⟩
    unfold cutBody at hcut
    split at hcut
    · rename_i before after hsplit
      cases hcut
      obtain ⟨l, r, hl, hr, hbefore⟩ := trim_spec before
      refine ⟨hname, l, r, hl, hr, ?_⟩
      rw [← hbefore]
      exact splitPair_eq_some hsplit
    · cases hcut
      obtain ⟨l, r, hl, hr, hbody⟩ := trim_spec body
      refine ⟨hname, l, r, hl, hr, ?_⟩
      rw [← hbody]
      exact (List.append_nil body).symm

section Strings
variable {path : String} {lookup : String → Option String} {body name rest : List Char}
  {default : Option (List Char)}

theorem resolveBody_refers (h : Refers body name default) :
    resolveBody path lookup body =
      match ((lookup (String.ofList name)).map String.toList).or default with
      | some value => .ok value
      | none => .error (.undefinedVariable path (String.ofList name)) := by
  rw [refers_iff] at h
  obtain ⟨hcut, hname⟩ := h
  have hne : name.isEmpty = false := List.isEmpty_eq_false_iff.mpr (isEnvName_chars hname).1
  have hcode : resolveBody path lookup body =
      if (cutBody body).1.isEmpty || !isEnvName (cutBody body).1 then
        .error (.invalidReference path (String.ofList body))
      else
        match lookup (String.ofList (cutBody body).1) with
        | some value => .ok value.toList
        | none =>
          match (cutBody body).2 with
          | some default => .ok default
          | none => .error (.undefinedVariable path (String.ofList (cutBody body).1)) := rfl
  rw [hcode, hcut]
  simp only [hne, hname, Bool.not_true, Bool.or_self, Bool.false_eq_true, if_false]
  cases lookup (String.ofList name) with
  | some value => rfl
  | none => cases default <;> rfl

theorem resolveBody_invalid (h : ∀ name default, ¬ Refers body name default) :
    resolveBody path lookup body = .error (.invalidReference path (String.ofList body)) := by
  have hbad : isEnvName (cutBody body).1 = false := by
    by_contra hname
    exact h _ _ (refers_iff.mpr ⟨rfl, Bool.eq_true_of_not_eq_false hname⟩)
  exact if_pos (by
    show ((cutBody body).1.isEmpty || !isEnvName (cutBody body).1) = true
    rw [hbad]
    exact Bool.or_true _)

/-! ### The loop -/

theorem expandLoop_nil {rounds : Nat} {out : List Char} : expandLoop path lookup rounds [] out = .ok out := by
  cases rounds with
  | zero => rw [expandLoop_zero, List.append_nil]
  | succ rounds => exact congrArg Except.ok (List.append_nil out)

/-- What is not a dollar is copied. -/
theorem expandLoop_plain {rounds : Nat} {c : Char} {out : List Char} (hc : c ≠ '$') :
    expandLoop path lookup rounds (c :: rest) out = expandLoop path lookup rounds rest (out ++ [c]) := by
  cases rounds with
  | zero => rw [expandLoop_zero, expandLoop_zero, List.append_cons]
  | succ rounds =>
    rcases exists_cut '$' rest with hnone | ⟨before, after, hbefore, rfl⟩
    · have hnone' : '$' ∉ c :: rest := by
        rw [List.mem_cons, not_or]
        exact ⟨hc.symm, hnone⟩
      simp only [expandLoop, span_ne_of_not_mem hnone, span_ne_of_not_mem hnone', List.append_assoc,
        List.singleton_append]
    · have hbefore' : '$' ∉ c :: before := by
        rw [List.mem_cons, not_or]
        exact ⟨hc.symm, hbefore⟩
      simp only [expandLoop, ← List.cons_append, span_ne_append hbefore, span_ne_append hbefore', List.append_assoc,
        List.singleton_append]
      cases after with
      | nil => rfl
      | cons d after =>
        by_cases hdollar : d = '$'
        · rw [hdollar]
          rfl
        · by_cases hbrace : d = '{'
          · rw [hbrace]
            rfl
          · simp [hdollar, hbrace]

theorem span_dollar (after : List Char) : ('$' :: after).span (· ≠ '$') = ([], '$' :: after) :=
  span_ne_append (List.not_mem_nil : '$' ∉ ([] : List Char)) after

theorem expandLoop_dollar {rounds : Nat} {out : List Char} :
    expandLoop path lookup (rounds + 1) ('$' :: '$' :: rest) out = expandLoop path lookup rounds rest (out ++ ['$']) := by
  rw [expandLoop, span_dollar]
  exact congrArg (expandLoop path lookup rounds rest) (by rw [List.append_nil])

theorem expandLoop_bare {rounds : Nat} {out : List Char} (hdollar : rest.head? ≠ some '$')
    (hbrace : rest.head? ≠ some '{') :
    expandLoop path lookup (rounds + 1) ('$' :: rest) out = expandLoop path lookup rounds rest (out ++ ['$']) := by
  rw [expandLoop, span_dollar]
  split
  · rename_i heq
    cases heq
    exact absurd rfl hdollar
  · rename_i heq
    cases heq
    exact absurd rfl hbrace
  · rename_i heq
    cases heq
    rw [List.append_nil]
  · rename_i heq
    cases heq

theorem expandLoop_reference {rounds : Nat} {out : List Char} (hclosed : '}' ∉ body) :
    expandLoop path lookup (rounds + 1) ('$' :: '{' :: (body ++ '}' :: rest)) out =
      (resolveBody path lookup body >>= fun value => expandLoop path lookup rounds rest (out ++ value)) := by
  rw [expandLoop, span_dollar]
  simp only [span_ne_append hclosed, List.append_nil]

theorem expandLoop_unterminated {rounds : Nat} {out : List Char} (hopen : '}' ∉ rest) :
    expandLoop path lookup (rounds + 1) ('$' :: '{' :: rest) out =
      .error (.unterminatedReference path (preview ('$' :: '{' :: rest))) := by
  rw [expandLoop, span_dollar]
  simp only [span_ne_of_not_mem hopen]

theorem map_map_append {result : Except InterpolationError (List Char)} {out value : List Char} :
    result.map ((out ++ value) ++ ·) = (result.map (value ++ ·)).map (out ++ ·) := by
  cases result with
  | error e => rfl
  | ok l => exact congrArg Except.ok (List.append_assoc out value l)

/-- Every reading is what the loop computes, in as many turns as there are characters. -/
theorem expandLoop_reads {text : List Char} {result : Except InterpolationError (List Char)}
    (h : Reads path lookup text result) {rounds : Nat} (hrounds : text.length ≤ rounds) (out : List Char) :
    expandLoop path lookup rounds text out = result.map (out ++ ·) := by
  induction h generalizing rounds out with
  | done => rw [expandLoop_nil, Except.map, List.append_nil]
  | plain hc _ ih =>
    rw [List.length_cons] at hrounds
    rw [expandLoop_plain hc, ih (by omega), map_map_append]
    rfl
  | dollar _ ih =>
    obtain ⟨rounds, rfl⟩ : ∃ n, rounds = n + 1 := ⟨rounds - 1, by simp only [List.length_cons] at hrounds; omega⟩
    simp only [List.length_cons] at hrounds
    rw [expandLoop_dollar, ih (by omega), map_map_append]
    rfl
  | bare hdollar hbrace _ ih =>
    obtain ⟨rounds, rfl⟩ : ∃ n, rounds = n + 1 := ⟨rounds - 1, by simp only [List.length_cons] at hrounds; omega⟩
    simp only [List.length_cons] at hrounds
    rw [expandLoop_bare hdollar hbrace, ih (by omega), map_map_append]
    rfl
  | value hclosed hbody hvalue _ ih =>
    obtain ⟨rounds, rfl⟩ : ∃ n, rounds = n + 1 := ⟨rounds - 1, by simp only [List.length_cons] at hrounds; omega⟩
    simp only [List.length_cons, List.length_append] at hrounds
    rw [expandLoop_reference hclosed, resolveBody_refers hbody, hvalue]
    exact (ih (by omega) _).trans map_map_append
  | undefined hclosed hbody hvalue =>
    obtain ⟨rounds, rfl⟩ : ∃ n, rounds = n + 1 := ⟨rounds - 1, by simp only [List.length_cons] at hrounds; omega⟩
    rw [expandLoop_reference hclosed, resolveBody_refers hbody, hvalue]
    rfl
  | invalid hclosed hbody =>
    obtain ⟨rounds, rfl⟩ : ∃ n, rounds = n + 1 := ⟨rounds - 1, by simp only [List.length_cons] at hrounds; omega⟩
    rw [expandLoop_reference hclosed, resolveBody_invalid hbody]
    rfl
  | unterminated hopen =>
    obtain ⟨rounds, rfl⟩ : ∃ n, rounds = n + 1 := ⟨rounds - 1, by simp only [List.length_cons] at hrounds; omega⟩
    rw [expandLoop_unterminated hopen]
    rfl

/-- Every text has a reading. -/
theorem exists_reads (path : String) (lookup : String → Option String) (text : List Char) :
    ∃ result, Reads path lookup text result := by
  induction hn : text.length using Nat.strong_induction_on generalizing text with
  | _ n ih =>
    have hshorter : ∀ rest : List Char, rest.length < n → ∃ result, Reads path lookup rest result := fun rest hlt =>
      ih rest.length hlt rest rfl
    match text with
    | [] => exact ⟨_, .done⟩
    | c :: rest =>
      rw [List.length_cons] at hn
      by_cases hc : c = '$'
      · subst hc
        by_cases hdollar : rest.head? = some '$'
        · obtain ⟨after, rfl⟩ := List.head?_eq_some_iff.mp hdollar
          rw [List.length_cons] at hn
          obtain ⟨result, h⟩ := hshorter after (by omega)
          exact ⟨_, .dollar h⟩
        · by_cases hbrace : rest.head? = some '{'
          · obtain ⟨after, rfl⟩ := List.head?_eq_some_iff.mp hbrace
            rcases exists_cut '}' after with hopen | ⟨body, remainder, hclosed, rfl⟩
            · exact ⟨_, .unterminated hopen⟩
            · rw [List.length_cons, List.length_append, List.length_cons] at hn
              obtain ⟨result, h⟩ := hshorter remainder (by omega)
              by_cases hbody : ∃ name default, Refers body name default
              · obtain ⟨name, default, hbody⟩ := hbody
                cases hvalue : ((lookup (String.ofList name)).map String.toList).or default with
                | some value => exact ⟨_, .value hclosed hbody hvalue h⟩
                | none =>
                  obtain ⟨hlookup, rfl⟩ := Option.or_eq_none_iff.mp hvalue
                  exact ⟨_, .undefined hclosed hbody (Option.map_eq_none_iff.mp hlookup)⟩
              · exact ⟨_, .invalid hclosed fun name default h => hbody ⟨name, default, h⟩⟩
          · obtain ⟨result, h⟩ := hshorter rest (by omega)
            exact ⟨_, .bare hdollar hbrace h⟩
      · obtain ⟨result, h⟩ := hshorter rest (by omega)
        exact ⟨_, .plain hc h⟩

theorem expandList_iff {text : List Char} {result : Except InterpolationError (List Char)} :
    expandList path lookup text = result ↔ Reads path lookup text result := by
  have hreads : ∀ {result}, Reads path lookup text result → expandList path lookup text = result := by
    intro result h
    rw [expandList, expandLoop_reads h le_rfl]
    cases result <;> rfl
  constructor
  · rintro rfl
    obtain ⟨result, h⟩ := exists_reads path lookup text
    rw [hreads h]
    exact h
  · exact hreads

/-- Every dollar doubled. -/
def escape (text : List Char) : List Char := text.flatMap fun c => if c = '$' then ['$', '$'] else [c]

/-- A doubled text is read without a reference in it, whatever the environment is. -/
theorem reads_escape (text : List Char) : Reads path lookup (escape text) (.ok text) := by
  induction text with
  | nil => exact .done
  | cons c rest ih =>
    by_cases hc : c = '$'
    · subst hc
      exact .dollar ih
    · have hcons : escape (c :: rest) = c :: escape rest := by
        rw [escape, List.flatMap_cons, if_neg hc]
        rfl
      rw [hcons]
      exact .plain hc ih

end Strings

end Iii.Compose
