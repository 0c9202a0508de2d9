import Iii.Update.Ops

/-! An update is a fold of single steps.

What an operation does depends on the value it finds, and on whether the field is still missing; its index only names
its error. So one operation has one `Effect`: it writes, or it does nothing, or it fails and leaves the value as it is.
Everything about lists of operations is read off that. -/
namespace Iii.Update
open Lib

/-- What one operation comes to. A failure below the root can still count as a write for the missing default. -/
inductive Effect where
  | write (v : Value)
  | keep
  | fail (code message : String) (missing : Bool)

def Effect.run (opIndex : Nat) (s : State) : Effect → State
  | .write v => s.write v
  | .keep => s
  | .fail code message missing => ⟨s.current, missing, s.errors ++ [err opIndex code message]⟩

/-- `e` is what `op` does to a value, whatever its index and the errors before it. -/
def Comes (op : UpdateOp) (current : Value) (missing : Bool) (e : Effect) : Prop :=
  ∀ opIndex errors, applyOp opIndex op ⟨current, missing, errors⟩ = e.run opIndex ⟨current, missing, errors⟩

/-- An effect never makes a written field missing again. -/
def Effect.Settles (missing : Bool) : Effect → Prop
  | .fail _ _ missing' => missing = false → missing' = false
  | _ => True

variable {current : Value} {missing : Bool}

/-! ### Paths and values -/

/-- Whether a path is rejected, and why, does not depend on the index. -/
theorem validateSegment_cases (opName seg : String) : (∀ i, validateSegment opName i seg = none) ∨
    ∃ code message, ∀ i, validateSegment opName i seg = some (err i code message) := by
  unfold validateSegment
  split
  · exact .inr ⟨_, _, fun _ => rfl⟩
  · split
    · exact .inr ⟨_, _, fun _ => rfl⟩
    · split
      · exact .inr ⟨_, _, fun _ => rfl⟩
      · exact .inl fun _ => rfl

theorem validateOpPath_cases (opName : String) (segments : List String) :
    (∀ i, validateOpPath opName i segments = none) ∨
      ∃ code message, ∀ i, validateOpPath opName i segments = some (err i code message) := by
  unfold validateOpPath
  split
  · exact .inr ⟨_, _, fun _ => rfl⟩
  · induction segments with
    | nil => exact .inl fun _ => rfl
    | cons seg rest ih =>
      rename_i hlen
      rcases validateSegment_cases opName seg with hnone | ⟨code, message, hsome⟩
      · have hrest := ih fun h => hlen (Nat.lt_succ_of_lt h)
        rcases hrest with hrest | ⟨code, message, hrest⟩
        · exact .inl fun i => by rw [List.findSome?_cons, hnone, hrest]
        · exact .inr ⟨code, message, fun i => by rw [List.findSome?_cons, hnone, hrest]⟩
      · exact .inr ⟨code, message, fun i => by rw [List.findSome?_cons, hsome]⟩

theorem validateMergeValue_cases (value : Value) : (∀ i, validateMergeValue i value = none) ∨
    ∃ code message, ∀ i, validateMergeValue i value = some (err i code message) := by
  cases value with
  | object map =>
    unfold validateMergeValue
    dsimp only
    split
    · exact .inr ⟨_, _, fun _ => rfl⟩
    · split
      · exact .inr ⟨_, _, fun _ => rfl⟩
      · split
        · exact .inr ⟨_, _, fun _ => rfl⟩
        · exact .inl fun _ => rfl
  | _ => exact .inr ⟨_, _, fun _ => rfl⟩

theorem appendToTarget_cases (target value : Value) (path : String) :
    (∃ v, ∀ i, appendToTarget target value path i = .ok v) ∨
      ∃ code message, ∀ i, appendToTarget target value path i = .error (err i code message) := by
  cases target with
  | array items => exact .inl ⟨_, fun _ => rfl⟩
  | string existing =>
    cases value with
    | string chunk => exact .inl ⟨_, fun _ => rfl⟩
    | _ => exact .inr ⟨_, _, fun _ => rfl⟩
  | null => exact .inl ⟨_, fun _ => rfl⟩
  | _ => exact .inr ⟨_, _, fun _ => rfl⟩

/-! ### Appending below the root -/

theorem insert_eq_self {map : Members} {key : String} {v : Value} (h : Assoc.get? map key = some v) :
    Assoc.insert map key v = map := by
  induction map with
  | nil => cases h
  | cons m rest ih =>
    rw [Assoc.get?_cons] at h
    rw [Assoc.insert]
    split
    · rename_i hkey
      rw [if_pos hkey] at h
      rw [← hkey, ← Option.some.inj h]
    · rename_i hkey
      rw [if_neg hkey] at h
      rw [ih h]

/-- The leaf is written, or it is there and cannot be appended to. -/
theorem appendLeaf_cases (leafKey : String) (value missing : Value) (map : Members) :
    (∃ map', ∀ i, appendLeaf leafKey value missing i map = (map', [])) ∨
      (Assoc.get? map leafKey).isSome ∧
        ∃ code message, ∀ i, appendLeaf leafKey value missing i map = (map, [err i code message]) := by
  unfold appendLeaf
  cases hget : Assoc.get? map leafKey with
  | none => exact .inl ⟨_, fun _ => rfl⟩
  | some existing =>
    rcases appendToTarget_cases existing value leafKey with ⟨v, hv⟩ | ⟨code, message, herror⟩
    · exact .inl ⟨Assoc.insert map leafKey v, fun i => by simp only [hv]⟩
    · exact .inr ⟨rfl, code, message, fun i => by simp only [herror]⟩

/-- A leaf that is there has its whole path there: where the walk ends in a failure, it made nothing. -/
theorem walkNode_appendLeaf (leafKey : String) (value missing : Value) (segments : List String) :
    ∀ map : Members, (∃ v, ∀ i, walkNode (appendLeaf leafKey value missing i) (.object map) segments = some (v, [])) ∨
      ((Assoc.get? map ((segments ++ [leafKey]).headD "")).isSome ∧ ∃ code message, ∀ i,
        walkNode (appendLeaf leafKey value missing i) (.object map) segments =
          some (.object map, [err i code message])) := by
  induction segments with
  | nil =>
    intro map
    rcases appendLeaf_cases leafKey value missing map with ⟨map', h⟩ | ⟨hleaf, code, message, h⟩
    · exact .inl ⟨.object map', fun i => by simp only [walkNode, h]⟩
    · exact .inr ⟨hleaf, code, message, fun i => by simp only [walkNode, h]⟩
  | cons seg rest ih =>
    intro map
    -- a fresh object on the way holds no leaf, so the walk through it writes one
    have hfresh : ∀ entry, asObject ((Assoc.get? map seg).getD (.object [])) = .object entry →
        (∃ v, ∀ i, walkNode (appendLeaf leafKey value missing i) (.object map) (seg :: rest) = some (v, [])) ∨
          (∃ code message, ∀ i, walkNode (appendLeaf leafKey value missing i) (.object map) (seg :: rest) =
            some (.object (Assoc.insert map seg (.object entry)), [err i code message])) ∧
          (Assoc.get? entry ((rest ++ [leafKey]).headD "")).isSome := by
      intro entry hentry
      rcases ih entry with ⟨v, h⟩ | ⟨hthere, code, message, h⟩
      · exact .inl ⟨.object (Assoc.insert map seg v), fun i => by rw [walkNode, hentry, h]; rfl⟩
      · exact .inr ⟨⟨code, message, fun i => by rw [walkNode, hentry, h]; rfl⟩, hthere⟩
    have hempty : ∀ entry, asObject ((Assoc.get? map seg).getD (.object [])) = .object entry → entry = [] →
        ∃ v, ∀ i, walkNode (appendLeaf leafKey value missing i) (.object map) (seg :: rest) = some (v, []) := by
      intro entry hentry hnil
      rcases hfresh entry hentry with h | ⟨-, hthere⟩
      · exact h
      · rw [hnil] at hthere
        cases hthere
    cases hget : Assoc.get? map seg with
    | none =>
      rw [hget] at hempty
      exact .inl (hempty [] rfl rfl)
    | some existing =>
      cases existing with
      | object entry =>
        rw [hget] at hfresh
        rcases hfresh entry rfl with h | ⟨⟨code, message, h⟩, -⟩
        · exact .inl h
        · rw [insert_eq_self hget] at h
          exact .inr ⟨by simp [hget], code, message, h⟩
      | _ =>
        rw [hget] at hempty
        exact .inl (hempty [] rfl rfl)

/-! ### One operation -/

theorem applySet_effect (path : String) (value : Option Value) :
    ∃ e, Comes (.set path value) current missing e ∧ e.Settles missing := by
  unfold Comes
  simp only [applyOp, applySet]
  rcases validateOpPath_cases "set" (fieldPathSegments path) with hok | ⟨code, message, hbad⟩
  · simp only [hok]
    split
    · exact ⟨.write (value.getD .null), fun _ _ => rfl, trivial⟩
    · cases current with
      | object map => exact ⟨.write (.object (Assoc.insert map path (value.getD .null))), fun _ _ => rfl, trivial⟩
      | _ => exact ⟨.fail _ _ missing, fun _ _ => rfl, id⟩
  · simp only [hbad]
    exact ⟨.fail code message missing, fun _ _ => rfl, id⟩

theorem applyRemove_effect (path : String) : ∃ e, Comes (.remove path) current missing e ∧ e.Settles missing := by
  unfold Comes
  simp only [applyOp, applyRemove]
  rcases validateOpPath_cases "remove" (fieldPathSegments path) with hok | ⟨code, message, hbad⟩
  · simp only [hok]
    split
    · exact ⟨.write .null, fun _ _ => rfl, trivial⟩
    · cases current with
      | object map => exact ⟨.write (.object (Assoc.erase map path)), fun _ _ => rfl, trivial⟩
      | _ => exact ⟨.fail _ _ missing, fun _ _ => rfl, id⟩
  · simp only [hbad]
    exact ⟨.fail code message missing, fun _ _ => rfl, id⟩

theorem applyMerge_effect (path : Option MergePath) (value : Value) :
    ∃ e, Comes (.merge path value) current missing e ∧ e.Settles missing := by
  unfold Comes
  simp only [applyOp, applyMerge]
  rcases validateOpPath_cases "merge" (mergePathSegments path) with hok | ⟨code, message, hbad⟩
  · simp only [hok]
    rcases validateMergeValue_cases value with hvalue | ⟨code, message, hbad⟩
    · simp only [hvalue]
      cases value with
      | object newMap =>
        dsimp only
        split
        · cases current with
          | object existing => exact ⟨.write (.object (Assoc.insertAll existing newMap)), fun _ _ => rfl, trivial⟩
          | _ => exact ⟨.keep, fun _ _ => rfl, trivial⟩
        · cases walkOrCreate current (mergePathSegments path) fun target => (Assoc.insertAll target newMap, ()) with
          | some r => exact ⟨.write r.1, fun _ _ => rfl, trivial⟩
          | none => exact ⟨.keep, fun _ _ => rfl, trivial⟩
      | _ => exact ⟨.keep, fun _ _ => rfl, trivial⟩
    · simp only [hbad]
      exact ⟨.fail code message missing, fun _ _ => rfl, id⟩
  · simp only [hbad]
    exact ⟨.fail code message missing, fun _ _ => rfl, id⟩

theorem applyNumeric_effect (op : Numeric) (path : String) (by_ : I64) :
    ∃ e : Effect, (∀ i errors, applyNumeric op i path by_ ⟨current, missing, errors⟩ =
      e.run i ⟨current, missing, errors⟩) ∧ e.Settles missing := by
  simp only [applyNumeric]
  rcases validateOpPath_cases op.name (fieldPathSegments path) with hok | ⟨code, message, hbad⟩
  · simp only [hok]
    split
    · split
      · exact ⟨.write (op.missing by_), fun _ _ => rfl, trivial⟩
      · cases op.update current by_ with
        | some updated => exact ⟨.write updated, fun _ _ => rfl, trivial⟩
        | none => exact ⟨.fail _ _ missing, fun _ _ => rfl, id⟩
    · cases current with
      | object map =>
        cases hget : Assoc.get? map path with
        | some existing =>
          simp only [hget]
          cases op.update existing by_ with
          | some updated => exact ⟨.write (.object (Assoc.insert map path updated)), fun _ _ => rfl, trivial⟩
          | none => exact ⟨.fail _ _ missing, fun _ _ => rfl, id⟩
        | none =>
          simp only [hget]
          exact ⟨.write (.object (Assoc.insert map path (op.missing by_))), fun _ _ => rfl, trivial⟩
      | _ => exact ⟨.fail _ _ missing, fun _ _ => rfl, id⟩
  · simp only [hbad]
    exact ⟨.fail code message missing, fun _ _ => rfl, id⟩

theorem applyAppend_effect (path : Option MergePath) (value : Value) :
    ∃ e, Comes (.append path value) current missing e ∧ e.Settles missing := by
  unfold Comes
  simp only [applyOp, applyAppend]
  rcases validateOpPath_cases "append" (mergePathSegments path) with hok | ⟨code, message, hbad⟩
  · simp only [hok]
    cases mergePathSegments path with
    | nil =>
      dsimp only
      rcases appendToTarget_cases (if missing then .null else current) value "root" with ⟨v, hv⟩ | ⟨code, message, herror⟩
      · simp only [hv]
        exact ⟨.write v, fun _ _ => rfl, trivial⟩
      · simp only [herror]
        exact ⟨.fail code message missing, fun _ _ => rfl, id⟩
    | cons seg rest =>
      cases current with
      | object map =>
        dsimp only
        split
        · rcases appendLeaf_cases seg value (initialAppendValue value) map with ⟨map', h⟩ | ⟨-, code, message, h⟩
          · simp only [h]
            exact ⟨.write (.object map'), fun _ errors => by simp [Effect.run, State.write, State.push], trivial⟩
          · simp only [h]
            exact ⟨.fail code message false, fun _ _ => rfl, fun _ => rfl⟩
        · rcases walkNode_appendLeaf ((seg :: rest).getLast (by simp)) value (.array [value]) (seg :: rest).dropLast map
            with ⟨v, h⟩ | ⟨-, code, message, h⟩
          · simp only [walkOrCreate, asObject, h]
            exact ⟨.write v, fun _ errors => by simp [Effect.run, State.write, State.push], trivial⟩
          · simp only [walkOrCreate, asObject, h]
            exact ⟨.fail code message false, fun _ _ => rfl, fun _ => rfl⟩
      | _ => exact ⟨.fail _ _ missing, fun _ _ => rfl, id⟩
  · simp only [hbad]
    exact ⟨.fail code message missing, fun _ _ => rfl, id⟩

/-- **An operation has one effect**, whatever its index and the errors before it. -/
theorem applyOp_effect (op : UpdateOp) (current : Value) (missing : Bool) :
    ∃ e, Comes op current missing e ∧ e.Settles missing := by
  cases op with
  | set path value => exact applySet_effect path value
  | merge path value => exact applyMerge_effect path value
  | increment path by_ => exact applyNumeric_effect .increment path by_
  | decrement path by_ => exact applyNumeric_effect .decrement path by_
  | append path value => exact applyAppend_effect path value
  | remove path => exact applyRemove_effect path

/-! ### Lists of operations -/

/-- An error under another index. -/
def UpdateOpError.shift (n : Nat) (e : UpdateOpError) : UpdateOpError := { e with opIndex := n + e.opIndex }

theorem applyOps_append (i : Nat) (ops₁ ops₂ : List UpdateOp) (s : State) :
    applyOps i (ops₁ ++ ops₂) s = applyOps (i + ops₁.length) ops₂ (applyOps i ops₁ s) := by
  induction ops₁ generalizing i s with
  | nil => rfl
  | cons op rest ih =>
    rw [List.cons_append, applyOps, applyOps, ih, List.length_cons]
    congr 1
    omega

/-- What one operation leaves: the value it writes, or an error of its own. -/
theorem applyOp_step (i : Nat) (op : UpdateOp) (s : State) :
    (applyOp i op s).errors = s.errors ∨
      ∃ e, e.opIndex = i ∧ (applyOp i op s).errors = s.errors ++ [e] ∧ (applyOp i op s).current = s.current := by
  obtain ⟨current, missing, errors⟩ := s
  obtain ⟨e, he, -⟩ := applyOp_effect op current missing
  rw [he]
  cases e with
  | write v => exact .inl rfl
  | keep => exact .inl rfl
  | fail code message missing' => exact .inr ⟨err i code message, rfl, rfl, rfl⟩

/-- A value that exists is not missing after any operation. -/
theorem applyOp_settled (i : Nat) (op : UpdateOp) (s : State) (h : s.usingMissingDefault = false) :
    (applyOp i op s).usingMissingDefault = false := by
  obtain ⟨current, missing, errors⟩ := s
  obtain ⟨e, he, hsettles⟩ := applyOp_effect op current missing
  rw [he]
  cases e with
  | write v => rfl
  | keep => exact h
  | fail code message missing' => exact hsettles h

theorem applyOps_settled (i : Nat) (ops : List UpdateOp) (s : State) (h : s.usingMissingDefault = false) :
    (applyOps i ops s).usingMissingDefault = false := by
  induction ops generalizing i s with
  | nil => exact h
  | cons op rest ih => exact ih (i + 1) _ (applyOp_settled i op s h)

/-- The same run from another index, after other errors: the same value, and the same errors under other indices. -/
structure Shifted (n : Nat) (before : List UpdateOpError) (s t : State) : Prop where
  current : t.current = s.current
  missing : t.usingMissingDefault = s.usingMissingDefault
  errors : t.errors = before ++ s.errors.map (UpdateOpError.shift n)

theorem Shifted.applyOp {n : Nat} {before : List UpdateOpError} {s t : State} (h : Shifted n before s t) (i : Nat)
    (op : UpdateOp) : Shifted n before (applyOp i op s) (applyOp (n + i) op t) := by
  obtain ⟨current, missing, errors⟩ := s
  obtain ⟨current', missing', errors'⟩ := t
  obtain ⟨hcurrent, hmissing, herrors⟩ := h
  dsimp only at hcurrent hmissing herrors
  subst hcurrent hmissing herrors
  obtain ⟨e, he, -⟩ := applyOp_effect op current' missing'
  rw [he, he]
  cases e with
  | write v => exact ⟨rfl, rfl, rfl⟩
  | keep => exact ⟨rfl, rfl, rfl⟩
  | fail code message missing =>
    refine ⟨rfl, rfl, ?_⟩
    simp only [Effect.run, List.map_append, List.append_assoc]
    rfl

theorem Shifted.applyOps {n : Nat} {before : List UpdateOpError} {s t : State} (h : Shifted n before s t) (i : Nat)
    (ops : List UpdateOp) : Shifted n before (applyOps i ops s) (applyOps (n + i) ops t) := by
  induction ops generalizing i s t with
  | nil => exact h
  | cons op rest ih => exact ih (h.applyOp i op) (i + 1)

/-- The errors of a run have the indices of its operations, in their order. -/
theorem applyOps_ordered (i : Nat) (ops : List UpdateOp) (s : State) (h : (s.errors.map (·.opIndex)).Pairwise (· < ·))
    (hbelow : ∀ e ∈ s.errors, e.opIndex < i) :
    ((applyOps i ops s).errors.map (·.opIndex)).Pairwise (· < ·) ∧
      ∀ e ∈ (applyOps i ops s).errors, e.opIndex < i + ops.length := by
  induction ops generalizing i s with
  | nil => exact ⟨h, hbelow⟩
  | cons op rest ih =>
    have hlen : i + (op :: rest).length = i + 1 + rest.length := by
      rw [List.length_cons]
      omega
    rw [applyOps, hlen]
    rcases applyOp_step i op s with hsame | ⟨e, hindex, herrors, -⟩
    · apply ih
      · rwa [hsame]
      · intro e he
        rw [hsame] at he
        exact Nat.lt_succ_of_lt (hbelow e he)
    · apply ih
      · rw [herrors, List.map_append, List.pairwise_append]
        refine ⟨h, List.pairwise_singleton .., ?_⟩
        intro a ha b hb
        obtain ⟨e', he', rfl⟩ := List.mem_map.mp ha
        obtain rfl : b = e.opIndex := by simpa using hb
        rw [hindex]
        exact hbelow e' he'
      · intro e' he'
        rw [herrors, List.mem_append, List.mem_singleton] at he'
        rcases he' with he' | rfl
        · exact Nat.lt_succ_of_lt (hbelow e' he')
        · omega

/-- On a value that exists, one list after another; the errors of the second are counted on from the first. -/
theorem applyUpdateOps_append (v : Value) (ops₁ ops₂ : List UpdateOp) :
    applyUpdateOps (some v) (ops₁ ++ ops₂) =
      ((applyUpdateOps (some (applyUpdateOps (some v) ops₁).1) ops₂).1,
        (applyUpdateOps (some v) ops₁).2 ++
          (applyUpdateOps (some (applyUpdateOps (some v) ops₁).1) ops₂).2.map (UpdateOpError.shift ops₁.length)) := by
  have hsettled := applyOps_settled 0 ops₁ (.start (some v)) rfl
  have hshifted : Shifted ops₁.length (applyOps 0 ops₁ (.start (some v))).errors
      (.start (some (applyOps 0 ops₁ (.start (some v))).current)) (applyOps 0 ops₁ (.start (some v))) :=
    ⟨rfl, hsettled, (List.append_nil _).symm⟩
  have h := hshifted.applyOps 0 ops₂
  simp only [applyUpdateOps, applyOps_append, Nat.zero_add]
  rw [← h.current, ← h.errors]
  rfl

/-- **An update is a fold of single steps with atomic failures.** After every prefix of the operations the next one
adds no error, or it adds one under its own index and leaves the value as it was; the indices of the errors ascend;
and on a value that exists two lists of operations come to the one after the other. -/
theorem applyUpdateOps_fold :
    (∀ (oldValue : Option Value) (ops : List UpdateOp) (k : Nat), k < ops.length →
      (applyUpdateOps oldValue (ops.take (k + 1))).2 = (applyUpdateOps oldValue (ops.take k)).2 ∨
        ∃ e, e.opIndex = k ∧
          (applyUpdateOps oldValue (ops.take (k + 1))).2 = (applyUpdateOps oldValue (ops.take k)).2 ++ [e] ∧
          (applyUpdateOps oldValue (ops.take (k + 1))).1 = (applyUpdateOps oldValue (ops.take k)).1) ∧
    (∀ (oldValue : Option Value) (ops : List UpdateOp),
      ((applyUpdateOps oldValue ops).2.map (·.opIndex)).Pairwise (· < ·) ∧
        ∀ e ∈ (applyUpdateOps oldValue ops).2, e.opIndex < ops.length) ∧
    ∀ (v : Value) (ops₁ ops₂ : List UpdateOp),
      applyUpdateOps (some v) (ops₁ ++ ops₂) =
        let (v₁, errors₁) := applyUpdateOps (some v) ops₁
        let (v₂, errors₂) := applyUpdateOps (some v₁) ops₂
        (v₂, errors₁ ++ errors₂.map (UpdateOpError.shift ops₁.length)) := by
  refine ⟨?_, ?_, ?_⟩
  · intro oldValue ops k hk
    have hsnoc : applyOps 0 (ops.take (k + 1)) (.start oldValue) =
        applyOp k ops[k] (applyOps 0 (ops.take k) (.start oldValue)) := by
      rw [List.take_succ_eq_append_getElem hk, applyOps_append, List.length_take, Nat.min_eq_left hk.le, Nat.zero_add]
      rfl
    simp only [applyUpdateOps, hsnoc]
    exact applyOp_step k ops[k] _
  · intro oldValue ops
    have h := applyOps_ordered 0 ops (.start oldValue) List.Pairwise.nil (by simp [State.start])
    rwa [Nat.zero_add] at h
  · intro v ops₁ ops₂
    exact applyUpdateOps_append v ops₁ ops₂

end Iii.Update
