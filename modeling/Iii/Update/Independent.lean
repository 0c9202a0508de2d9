import Iii.Update.Fold

/-! Updates of different fields.

An operation with a path works inside one member of the object, the one its first segment names: what it writes there
and which error it reports depend on that member alone, and every other member stays (`Acts`). So two lists of
operations whose first segments differ do not see each other: in either order they leave the same members and report
the same errors, each under its own index (`updates_independent`). -/
namespace Iii.Update
open Lib

/-- The first segment of an operation's path; an operation at the root has none. -/
def UpdateOp.first : UpdateOp → Option String
  | .set path _ => (fieldPathSegments path).head?
  | .merge path _ => (mergePathSegments path).head?
  | .increment path _ => (fieldPathSegments path).head?
  | .decrement path _ => (fieldPathSegments path).head?
  | .append path _ => (mergePathSegments path).head?
  | .remove path => (fieldPathSegments path).head?

theorem field_of_first {path k : String} (h : (fieldPathSegments path).head? = some k) : path ≠ "" ∧ path = k := by
  unfold fieldPathSegments at h
  split at h
  · cases h
  · rename_i hne
    exact ⟨hne, Option.some.inj h⟩

/-- A walk from the object goes through the member its first segment names. -/
theorem walkOrCreate_cons {α : Type} (f : Members → Members × α) (map : Members) (seg : String) (rest : List String) :
    walkOrCreate (.object map) (seg :: rest) f =
      (walkNode f (asObject ((Assoc.get? map seg).getD (.object []))) rest).map
        fun r => (.object (Assoc.insert map seg r.1), r.2) := rfl

/-! ### One operation -/

/-- On an object with `v` under `k`, the operation leaves `v'` under `k` and every other member as it was, and reports
`e` (a code and a message) under its index. -/
def Acts (op : UpdateOp) (k : String) (v v' : Option Value) (e : Option (String × String)) : Prop :=
  ∀ map, Assoc.get? map k = v → ∀ i missing errors, ∃ map' missing',
    applyOp i op ⟨.object map, missing, errors⟩ =
      ⟨.object map', missing', errors ++ e.toList.map fun e => err i e.1 e.2⟩ ∧
    ∀ key, Assoc.get? map' key = if k = key then v' else Assoc.get? map key

section Acts
variable {k : String} {v v' : Option Value} {op : UpdateOp}

/-- The operation fails, or does nothing. -/
theorem acts_leave {e : Option (String × String)}
    (h : ∀ map, Assoc.get? map k = v → ∀ i missing errors, ∃ missing',
      applyOp i op ⟨.object map, missing, errors⟩ =
        ⟨.object map, missing', errors ++ e.toList.map fun e => err i e.1 e.2⟩) : Acts op k v v e := by
  intro map hv i missing errors
  obtain ⟨missing', happly⟩ := h map hv i missing errors
  refine ⟨map, missing', happly, fun key => ?_⟩
  split
  · rename_i hkey
    rw [← hkey, hv]
  · rfl

/-- The operation writes the member. -/
theorem acts_insert {w : Value}
    (h : ∀ map, Assoc.get? map k = v → ∀ i missing errors, ∃ missing',
      applyOp i op ⟨.object map, missing, errors⟩ = ⟨.object (Assoc.insert map k w), missing', errors⟩) :
    Acts op k v (some w) none := by
  intro map hv i missing errors
  obtain ⟨missing', happly⟩ := h map hv i missing errors
  exact ⟨_, missing', by rw [happly]; simp, fun key => Assoc.get?_insert map k key w⟩

/-- The operation reports an error. -/
theorem acts_fail {code message : String}
    (h : ∀ map, Assoc.get? map k = v → ∀ i missing errors, ∃ missing',
      applyOp i op ⟨.object map, missing, errors⟩ = ⟨.object map, missing', errors ++ [err i code message]⟩) :
    Acts op k v v (some (code, message)) :=
  acts_leave h

theorem acts_set {path : String} {value : Option Value} (hk : (fieldPathSegments path).head? = some k) :
    ∃ v' e, Acts (.set path value) k v v' e := by
  obtain ⟨hne, rfl⟩ := field_of_first hk
  rcases validateOpPath_cases "set" (fieldPathSegments path) with hok | ⟨code, message, hbad⟩
  · refine ⟨some (value.getD .null), none, acts_insert fun map _ i missing errors => ⟨false, ?_⟩⟩
    simp only [applyOp, applySet, hok, if_neg hne]
    rfl
  · refine ⟨v, some (code, message), acts_fail fun map _ i missing errors => ⟨missing, ?_⟩⟩
    simp only [applyOp, applySet, hbad]
    rfl

theorem acts_remove {path : String} (hk : (fieldPathSegments path).head? = some k) :
    ∃ v' e, Acts (.remove path) k v v' e := by
  obtain ⟨hne, rfl⟩ := field_of_first hk
  rcases validateOpPath_cases "remove" (fieldPathSegments path) with hok | ⟨code, message, hbad⟩
  · refine ⟨none, none, fun map _ i missing errors => ⟨Assoc.erase map path, false, ?_, Assoc.get?_erase map path⟩⟩
    simp only [applyOp, applyRemove, hok, if_neg hne]
    simp [State.write]
  · refine ⟨v, some (code, message), acts_fail fun map _ i missing errors => ⟨missing, ?_⟩⟩
    simp only [applyOp, applyRemove, hbad]
    rfl

theorem acts_numeric {num : Numeric} {path : String} {by_ : I64}
    (hop : ∀ i s, applyOp i op s = applyNumeric num i path by_ s) (hk : (fieldPathSegments path).head? = some k) :
    ∃ v' e, Acts op k v v' e := by
  obtain ⟨hne, rfl⟩ := field_of_first hk
  rcases validateOpPath_cases num.name (fieldPathSegments path) with hok | ⟨code, message, hbad⟩
  · cases v with
    | none =>
      refine ⟨some (num.missing by_), none, acts_insert fun map hv i missing errors => ⟨false, ?_⟩⟩
      simp only [hop, applyNumeric, hok, if_neg hne, hv]
      rfl
    | some existing =>
      cases hupdate : num.update existing by_ with
      | some updated =>
        refine ⟨some updated, none, acts_insert fun map hv i missing errors => ⟨false, ?_⟩⟩
        simp only [hop, applyNumeric, hok, if_neg hne, hv, hupdate]
        rfl
      | none =>
        refine ⟨some existing, some (num.name ++ ".not_number", (num.notNumber 0 path existing).message),
          acts_fail fun map hv i missing errors => ⟨missing, ?_⟩⟩
        simp only [hop, applyNumeric, hok, if_neg hne, hv, hupdate]
        rfl
  · refine ⟨v, some (code, message), acts_fail fun map _ i missing errors => ⟨missing, ?_⟩⟩
    simp only [hop, applyNumeric, hbad]
    rfl

theorem acts_merge {path : Option MergePath} {value : Value} (hk : (mergePathSegments path).head? = some k) :
    ∃ v' e, Acts (.merge path value) k v v' e := by
  obtain ⟨rest, hsegments⟩ := List.head?_eq_some_iff.mp hk
  rcases validateOpPath_cases "merge" (mergePathSegments path) with hok | ⟨code, message, hbad⟩
  · rw [hsegments] at hok
    rcases validateMergeValue_cases value with hvalue | ⟨code, message, hbad⟩
    · cases value with
      | object newMap =>
        cases hwalk : walkNode (fun target => (Assoc.insertAll target newMap, ())) (asObject (v.getD (.object []))) rest with
        | some r =>
          refine ⟨some r.1, none, acts_insert fun map hv i missing errors => ⟨false, ?_⟩⟩
          simp only [applyOp, applyMerge, hsegments, hok, hvalue, List.isEmpty_cons, walkOrCreate_cons, hv, hwalk,
            Option.map_some]
          rfl
        | none =>
          refine ⟨v, none, acts_leave fun map hv i missing errors => ⟨missing, ?_⟩⟩
          simp only [applyOp, applyMerge, hsegments, hok, hvalue, List.isEmpty_cons, walkOrCreate_cons, hv, hwalk,
            Option.map_none]
          simp
      | _ =>
        refine ⟨v, none, acts_leave fun map _ i missing errors => ⟨missing, ?_⟩⟩
        simp [applyOp, applyMerge, hsegments, hok, hvalue]
    · refine ⟨v, some (code, message), acts_fail fun map _ i missing errors => ⟨missing, ?_⟩⟩
      simp only [applyOp, applyMerge, hsegments, hok, hbad]
      rfl
  · refine ⟨v, some (code, message), acts_fail fun map _ i missing errors => ⟨missing, ?_⟩⟩
    simp only [applyOp, applyMerge, hbad]
    rfl

/-- The leaf is the member itself, or it is further down and its parent is found or made on the way. -/
theorem acts_append {path : Option MergePath} {value : Value} (hk : (mergePathSegments path).head? = some k) :
    ∃ v' e, Acts (.append path value) k v v' e := by
  obtain ⟨rest, hsegments⟩ := List.head?_eq_some_iff.mp hk
  rcases validateOpPath_cases "append" (mergePathSegments path) with hok | ⟨code, message, hbad⟩
  · rw [hsegments] at hok
    cases rest with
    | nil =>
      cases v with
      | none =>
        refine ⟨some (initialAppendValue value), none, acts_insert fun map hv i missing errors => ⟨false, ?_⟩⟩
        simp only [applyOp, applyAppend, hsegments, hok, List.isEmpty_nil, if_true, appendLeaf, hv]
        simp [State.write, State.push]
      | some existing =>
        rcases appendToTarget_cases existing value k with ⟨w, hw⟩ | ⟨code, message, herror⟩
        · refine ⟨some w, none, acts_insert fun map hv i missing errors => ⟨false, ?_⟩⟩
          simp only [applyOp, applyAppend, hsegments, hok, List.isEmpty_nil, if_true, appendLeaf, hv, hw]
          simp [State.write, State.push]
        · refine ⟨some existing, some (code, message), acts_fail fun map hv i missing errors => ⟨false, ?_⟩⟩
          simp only [applyOp, applyAppend, hsegments, hok, List.isEmpty_nil, if_true, appendLeaf, hv, herror]
          simp [State.write, State.push]
    | cons next rest =>
      have hobject : ∃ entry, asObject (v.getD (.object [])) = .object entry := by
        unfold asObject
        split
        · exact ⟨_, rfl⟩
        · exact ⟨_, rfl⟩
      obtain ⟨entry, hentry⟩ := hobject
      have hsplit : (k :: next :: rest).dropLast = k :: (next :: rest).dropLast := rfl
      rcases walkNode_appendLeaf ((k :: next :: rest).getLast (by simp)) value (.array [value]) (next :: rest).dropLast
          entry with ⟨w, hw⟩ | ⟨hthere, code, message, herror⟩
      · refine ⟨some w, none, acts_insert fun map hv i missing errors => ⟨false, ?_⟩⟩
        simp only [applyOp, applyAppend, hsegments, hok, List.isEmpty_cons, hsplit, walkOrCreate_cons, hv, hentry, hw,
          Option.map_some]
        simp [State.write, State.push]
      · -- a leaf that is there has its parents there: nothing was made on the way
        have hv' : v = some (.object entry) := by
          cases v with
          | none =>
            cases hentry
            cases hthere
          | some existing =>
            cases existing with
            | object map => exact congrArg some hentry
            | _ =>
              cases hentry
              cases hthere
        refine ⟨v, some (code, message), acts_fail fun map hv i missing errors => ⟨false, ?_⟩⟩
        simp only [applyOp, applyAppend, hsegments, hok, List.isEmpty_cons, hsplit, walkOrCreate_cons, hv, hentry,
          herror, Option.map_some]
        rw [hv'] at hv
        simp [State.write, State.push, insert_eq_self hv]
  · refine ⟨v, some (code, message), acts_fail fun map _ i missing errors => ⟨missing, ?_⟩⟩
    simp only [applyOp, applyAppend, hbad]
    rfl

/-- **An operation stays inside the member its path begins with.** -/
theorem acts_first (h : op.first = some k) (v : Option Value) : ∃ v' e, Acts op k v v' e := by
  cases op with
  | set path value => exact acts_set h
  | merge path value => exact acts_merge h
  | increment path by_ => exact acts_numeric (fun _ _ => rfl) h
  | decrement path by_ => exact acts_numeric (fun _ _ => rfl) h
  | append path value => exact acts_append h
  | remove path => exact acts_remove h

end Acts

/-! ### Lists of operations -/

/-- Every operation begins with a segment in `K`. -/
def Within (K : String → Prop) (ops : List UpdateOp) : Prop := ∀ op ∈ ops, ∃ k, op.first = some k ∧ K k

def SameOn (K : String → Prop) (map map' : Members) : Prop := ∀ key, K key → Assoc.get? map key = Assoc.get? map' key

/-- Two runs of one list, from objects that agree where the list works: they report the same errors, still agree there,
and each leaves the rest of its object. -/
theorem applyOps_within {K : String → Prop} {ops : List UpdateOp} (hops : Within K ops) {map₁ map₂ : Members}
    (hsame : SameOn K map₁ map₂) (i : Nat) (missing₁ missing₂ : Bool) (errors₁ errors₂ : List UpdateOpError) :
    ∃ map₁' map₂' missing₁' missing₂' new,
      applyOps i ops ⟨.object map₁, missing₁, errors₁⟩ = ⟨.object map₁', missing₁', errors₁ ++ new⟩ ∧
      applyOps i ops ⟨.object map₂, missing₂, errors₂⟩ = ⟨.object map₂', missing₂', errors₂ ++ new⟩ ∧
      SameOn K map₁' map₂' ∧ SameOn (fun key => ¬ K key) map₁' map₁ ∧ SameOn (fun key => ¬ K key) map₂' map₂ := by
  induction ops generalizing i map₁ map₂ missing₁ missing₂ errors₁ errors₂ with
  | nil =>
    exact ⟨map₁, map₂, missing₁, missing₂, [], by rw [List.append_nil]; rfl, by rw [List.append_nil]; rfl, hsame,
      fun _ _ => rfl, fun _ _ => rfl⟩
  | cons op rest ih =>
    obtain ⟨k, hk, hK⟩ := hops op (List.mem_cons_self ..)
    obtain ⟨v', e, hacts⟩ := acts_first hk (Assoc.get? map₁ k)
    obtain ⟨next₁, missing₁', happly₁, hnext₁⟩ := hacts map₁ rfl i missing₁ errors₁
    obtain ⟨next₂, missing₂', happly₂, hnext₂⟩ := hacts map₂ (hsame k hK).symm i missing₂ errors₂
    have hsame' : SameOn K next₁ next₂ := by
      intro key hkey
      rw [hnext₁, hnext₂, hsame key hkey]
    have houter : ∀ {next map : Members}, (∀ key, Assoc.get? next key = if k = key then v' else Assoc.get? map key) →
        SameOn (fun key => ¬ K key) next map := by
      intro next map hnext key hkey
      rw [hnext, if_neg]
      rintro rfl
      exact hkey hK
    obtain ⟨map₁', map₂', m₁, m₂, new, hrun₁, hrun₂, hboth, hrest₁, hrest₂⟩ :=
      ih (fun op hop => hops op (List.mem_cons_of_mem _ hop)) hsame' (i + 1) missing₁' missing₂' _ _
    refine ⟨map₁', map₂', m₁, m₂, (e.toList.map fun e => err i e.1 e.2) ++ new, ?_, ?_, hboth, ?_, ?_⟩
    · rw [applyOps, happly₁, hrun₁, List.append_assoc]
    · rw [applyOps, happly₂, hrun₂, List.append_assoc]
    · exact fun key hkey => (hrest₁ key hkey).trans (houter hnext₁ key hkey)
    · exact fun key hkey => (hrest₂ key hkey).trans (houter hnext₂ key hkey)

/-! ### Independence -/

/-- The segments the operations of a list begin with. -/
def firsts (ops : List UpdateOp) (key : String) : Prop := ∃ op ∈ ops, op.first = some key

theorem within_firsts {ops : List UpdateOp} (h : ∀ op ∈ ops, op.first ≠ none) : Within (firsts ops) ops := by
  intro op hop
  obtain ⟨k, hk⟩ := Option.ne_none_iff_exists'.mp (h op hop)
  exact ⟨k, hk, op, hop, hk⟩

/-- An update of two objects that agree where it works. -/
theorem applyUpdateOps_within {K : String → Prop} {ops : List UpdateOp} (hops : Within K ops) (map₁ map₂ : Members)
    (hsame : SameOn K map₁ map₂) : ∃ map₁' map₂' errors,
      applyUpdateOps (some (.object map₁)) ops = (.object map₁', errors) ∧
      applyUpdateOps (some (.object map₂)) ops = (.object map₂', errors) ∧
      SameOn K map₁' map₂' ∧ SameOn (fun key => ¬ K key) map₁' map₁ ∧ SameOn (fun key => ¬ K key) map₂' map₂ := by
  obtain ⟨map₁', map₂', m₁, m₂, new, hrun₁, hrun₂, h⟩ := applyOps_within hops hsame 0 false false [] []
  have hstart : ∀ map, State.start (some (.object map)) = ⟨.object map, false, []⟩ := fun _ => rfl
  refine ⟨map₁', map₂', new, ?_, ?_, h⟩
  · simp only [applyUpdateOps, hstart, hrun₁, List.nil_append]
  · simp only [applyUpdateOps, hstart, hrun₂, List.nil_append]

/-- **Updates of different fields are independent.** Two lists that begin with different segments leave the same
members in either order, and each reports the errors it reports alone, counted from where it stands. And an operation
with a path leaves every member but the one the path begins with. -/
theorem updates_independent :
    (∀ (map : Members) (ops₁ ops₂ : List UpdateOp), (∀ op ∈ ops₁, op.first ≠ none) → (∀ op ∈ ops₂, op.first ≠ none) →
      (∀ a ∈ ops₁, ∀ b ∈ ops₂, a.first ≠ b.first) →
      ∃ map₁₂ map₂₁,
        applyUpdateOps (some (.object map)) (ops₁ ++ ops₂) =
          (.object map₁₂, (applyUpdateOps (some (.object map)) ops₁).2 ++
            (applyUpdateOps (some (.object map)) ops₂).2.map (UpdateOpError.shift ops₁.length)) ∧
        applyUpdateOps (some (.object map)) (ops₂ ++ ops₁) =
          (.object map₂₁, (applyUpdateOps (some (.object map)) ops₂).2 ++
            (applyUpdateOps (some (.object map)) ops₁).2.map (UpdateOpError.shift ops₂.length)) ∧
        ∀ key, Assoc.get? map₁₂ key = Assoc.get? map₂₁ key) ∧
    ∀ (op : UpdateOp) (k : String) (map : Members), op.first = some k → ∀ i missing errors, ∃ map',
      (applyOp i op ⟨.object map, missing, errors⟩).current = .object map' ∧
        ∀ key, key ≠ k → Assoc.get? map' key = Assoc.get? map key := by
  constructor
  · intro map ops₁ ops₂ h₁ h₂ hne
    have hdisjoint : ∀ key, firsts ops₁ key → ¬ firsts ops₂ key := by
      rintro key ⟨a, ha, hkey⟩ ⟨b, hb, hkey'⟩
      exact hne a ha b hb (hkey.trans hkey'.symm)
    obtain ⟨map₁, -, errors₁, halone₁, -, -, hrest₁, -⟩ :=
      applyUpdateOps_within (within_firsts h₁) map map fun _ _ => rfl
    -- the second list, after the first and alone
    obtain ⟨map₁₂, map₂, errors₂, hafter₂, halone₂, hsame₂, hrest₁₂, hrest₂⟩ :=
      applyUpdateOps_within (within_firsts h₂) map₁ map fun key hkey => hrest₁ key fun hkey' => hdisjoint key hkey' hkey
    -- the first list, after the second and alone
    obtain ⟨map₂₁, map₁', errors₁', hafter₁, halone₁', hsame₁, hrest₂₁, -⟩ :=
      applyUpdateOps_within (within_firsts h₁) map₂ map fun key hkey => hrest₂ key (hdisjoint key hkey)
    rw [halone₁, Prod.mk.injEq, Json.object.injEq] at halone₁'
    obtain ⟨rfl, rfl⟩ := halone₁'
    refine ⟨map₁₂, map₂₁, ?_, ?_, ?_⟩
    · rw [applyUpdateOps_append, halone₁, hafter₂, halone₂]
    · rw [applyUpdateOps_append, halone₂, hafter₁, halone₁]
    · intro key
      by_cases hkey : firsts ops₂ key
      · have hkey' : ¬ firsts ops₁ key := fun h => hdisjoint key h hkey
        rw [hsame₂ key hkey, hrest₂₁ key hkey']
      · rw [hrest₁₂ key hkey]
        by_cases hkey' : firsts ops₁ key
        · rw [hsame₁ key hkey']
        · rw [hrest₁ key hkey', hrest₂₁ key hkey', hrest₂ key hkey]
  · intro op k map hk i missing errors
    obtain ⟨v', e, hacts⟩ := acts_first hk (Assoc.get? map k)
    obtain ⟨map', missing', happly, hmap'⟩ := hacts map rfl i missing errors
    exact ⟨map', by rw [happly], fun key hkey => by rw [hmap', if_neg (Ne.symm hkey)]⟩

/-- One writer sets `a`, another removes `b`. -/
theorem updates_independent_set_remove :
    ∃ map₁₂ map₂₁ errors₁₂ errors₂₁,
      applyUpdateOps (some (.object [("b", .null)])) [.set "a" (some .null), .remove "b"] =
        (.object map₁₂, errors₁₂) ∧
      applyUpdateOps (some (.object [("b", .null)])) [.remove "b", .set "a" (some .null)] =
        (.object map₂₁, errors₂₁) ∧
      ∀ key, Assoc.get? map₁₂ key = Assoc.get? map₂₁ key := by
  obtain ⟨map₁₂, map₂₁, h₁₂, h₂₁, hsame⟩ := updates_independent.1 [("b", .null)] [.set "a" (some .null)] [.remove "b"]
    (by decide) (by decide) (by decide)
  exact ⟨map₁₂, map₂₁, _, _, h₁₂, h₂₁, hsame⟩

end Iii.Update
