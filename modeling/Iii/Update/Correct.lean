import Iii.Update.Diverge

/-! The engine's updates and the script's, over whole lists of operations. -/
namespace Iii.Update
open Lib Filter Script

/-! ### One operation -/

section Step
variable {redis : Redis} {s : State} {t : Script.State} {op : LuaValue} {i : Nat}

theorem type_of_opJson {uop : UpdateOp} (hop : Decodes (opJson uop) op) :
    op.index (.string "type") = .string (match uop with
      | .set _ _ => "set" | .merge _ _ => "merge" | .increment _ _ => "increment"
      | .decrement _ _ => "decrement" | .append _ _ => "append" | .remove _ => "remove") := by
  cases uop <;> exact decodes_string.mp (index_some hop rfl)

theorem applyOp_agree (h : Sim s t) {uop : UpdateOp} (hop : Decodes (opJson uop) op) (htame : OpTame uop)
    (hm : Mirrored s.usingMissingDefault s.current uop) (hsafe : Safe (applyOp i uop s).current) :
    ∃ t', Script.applyOp i op t = some t' ∧ Sim (applyOp i uop s) t' := by
  unfold Script.applyOp
  rw [type_of_opJson hop]
  cases uop with
  | set path value => exact applySet_agree h hop htame hm
  | merge path value => exact applyMerge_agree h hop htame hm
  | increment path by_ => exact applyNumeric_agree increment_sim h hop htame hm hsafe
  | decrement path by_ => exact applyNumeric_agree decrement_sim h hop htame hm hsafe
  | append path value => exact applyAppend_agree h hop htame hm
  | remove path => exact applyRemove_agree h hop hm

theorem applyOp_differs (hredis : Faithful redis) (h : Sim s t) {uop : UpdateOp}
    (hop : Decodes (opJson uop) op) (htame : OpTame uop)
    (hm : ¬ Mirrored s.usingMissingDefault s.current uop) {t' : Script.State}
    (ht' : Script.applyOp i op t = some t') : ¬ Shows redis (applyOp i uop s) t' := by
  unfold Script.applyOp at ht'
  rw [type_of_opJson hop] at ht'
  cases uop with
  | set path value => exact applySet_differs h hop hm ht'
  | merge path value => exact applyMerge_differs h hop htame hm ht'
  | increment path by_ => exact applyNumeric_differs increment_sim h hop hm ht'
  | decrement path by_ => exact applyNumeric_differs decrement_sim h hop hm ht'
  | append path value => exact applyAppend_differs hredis h hop htame hm ht'
  | remove path => exact applyRemove_differs h hop hm ht'

end Step

/-! ### Runs -/

/-- The engine's state after the first `n` operations. -/
def stateAfter (stored : Option Value) (ops : List UpdateOp) (n : Nat) : State :=
  applyOps 0 (ops.take n) (.start stored)

theorem applyOps_snoc (i : Nat) (ops : List UpdateOp) (op : UpdateOp) (s : State) :
    applyOps i (ops ++ [op]) s = applyOp (i + ops.length) op (applyOps i ops s) := by
  induction ops generalizing i s with
  | nil => rfl
  | cons op' rest ih =>
    rw [List.cons_append, applyOps, applyOps, ih, List.length_cons]
    congr 1
    omega

theorem script_applyOps_snoc (i : Nat) (ops : List LuaValue) (op : LuaValue) (t : Script.State) :
    Script.applyOps i (ops ++ [op]) t =
      (Script.applyOps i ops t).bind (Script.applyOp (i + ops.length) op) := by
  induction ops generalizing i t with
  | nil =>
    simp only [List.nil_append, Script.applyOps, Option.bind_some, List.length_nil, Nat.add_zero]
    cases Script.applyOp i op t <;> rfl
  | cons op' rest ih =>
    rw [List.cons_append, Script.applyOps, Script.applyOps, Option.bind_assoc]
    congr 1
    funext t'
    rw [ih, List.length_cons, Nat.add_right_comm, Nat.add_assoc]

theorem stateAfter_succ (stored : Option Value) {ops : List UpdateOp} {n : Nat} {op : UpdateOp}
    (hop : ops[n]? = some op) : stateAfter stored ops (n + 1) = applyOp n op (stateAfter stored ops n) := by
  obtain ⟨hn, -⟩ := List.getElem?_eq_some_iff.mp hop
  unfold stateAfter
  rw [List.take_add_one, hop, Option.toList_some, applyOps_snoc, List.length_take, Nat.zero_add,
    Nat.min_eq_left hn.le]

/-- Every one of the first `n` operations takes a mirrored branch. -/
def MirroredUpTo (stored : Option Value) (ops : List UpdateOp) (n : Nat) : Prop :=
  ∀ k op, k < n → ops[k]? = some op →
    Mirrored (stateAfter stored ops k).usingMissingDefault (stateAfter stored ops k).current op

section Runs
variable {stored : Option Value} {ops : List UpdateOp}

/-- The decoded operations, the last one apart. -/
theorem decoded_succ {n : Nat} {op : UpdateOp} (hop : ops[n]? = some op) {luaOps : List LuaValue}
    (h : List.Forall₂ Decodes ((ops.take (n + 1)).map opJson) luaOps) :
    ∃ before luaOp, luaOps = before ++ [luaOp] ∧ List.Forall₂ Decodes ((ops.take n).map opJson) before ∧
      Decodes (opJson op) luaOp ∧ before.length = n := by
  rw [List.take_add_one, hop, Option.toList_some, List.map_append] at h
  obtain ⟨before, luaOp, rfl, hbefore, hluaOp⟩ := forall₂_snoc h
  refine ⟨before, luaOp, rfl, hbefore, hluaOp, ?_⟩
  rw [← hbefore.length_eq, List.length_map, List.length_take,
    Nat.min_eq_left (List.getElem?_eq_some_iff.mp hop).1.le]

/-- While the operations are mirrored, the script's state follows the engine's. -/
theorem run_agree (hops : ∀ op ∈ ops, OpTame op) (hsafe : ∀ n, Safe (stateAfter stored ops n).current)
    {t : Script.State} (hstart : Sim (.start stored) t) (n : Nat) (hm : MirroredUpTo stored ops n) :
    ∀ luaOps, List.Forall₂ Decodes ((ops.take n).map opJson) luaOps →
      ∃ t', Script.applyOps 0 luaOps t = some t' ∧ Sim (stateAfter stored ops n) t' := by
  induction n with
  | zero =>
    intro luaOps hdec
    rw [List.take_zero, List.map_nil, List.forall₂_nil_left_iff] at hdec
    subst hdec
    exact ⟨t, rfl, hstart⟩
  | succ n ih =>
    intro luaOps hdec
    have ih := ih fun k op hk => hm k op (by omega)
    cases hop : ops[n]? with
    | none =>
      have hlen := List.getElem?_eq_none_iff.mp hop
      have htake : ops.take (n + 1) = ops.take n := by
        rw [List.take_of_length_le (by omega), List.take_of_length_le hlen]
      rw [htake] at hdec
      unfold stateAfter at ih ⊢
      rw [htake]
      exact ih luaOps hdec
    | some op =>
      obtain ⟨before, luaOp, rfl, hbefore, hluaOp, hlen⟩ := decoded_succ hop hdec
      obtain ⟨t', ht', hsim⟩ := ih before hbefore
      have hsucc := stateAfter_succ stored hop
      have hsafe' := hsafe (n + 1)
      rw [hsucc] at hsafe' ⊢
      rw [script_applyOps_snoc, ht', Option.bind_some, hlen, Nat.zero_add]
      exact applyOp_agree hsim hluaOp (hops op (List.mem_of_getElem? hop)) (hm n op (by omega) hop) hsafe'

/-- The first operation that is not mirrored shows. -/
theorem run_differs {redis : Redis} (hredis : Faithful redis) (hops : ∀ op ∈ ops, OpTame op)
    (hsafe : ∀ n, Safe (stateAfter stored ops n).current) {t : Script.State} (hstart : Sim (.start stored) t)
    {n : Nat} (hm : MirroredUpTo stored ops n) {op : UpdateOp} (hop : ops[n]? = some op)
    (hnot : ¬ Mirrored (stateAfter stored ops n).usingMissingDefault (stateAfter stored ops n).current op)
    {luaOps : List LuaValue} (hdec : List.Forall₂ Decodes ((ops.take (n + 1)).map opJson) luaOps)
    {t' : Script.State} (ht' : Script.applyOps 0 luaOps t = some t') :
    ¬ Shows redis (stateAfter stored ops (n + 1)) t' := by
  obtain ⟨before, luaOp, rfl, hbefore, hluaOp, hlen⟩ := decoded_succ hop hdec
  obtain ⟨t₁, ht₁, hsim⟩ := run_agree hops hsafe hstart n hm before hbefore
  rw [script_applyOps_snoc, ht₁, Option.bind_some, hlen, Nat.zero_add] at ht'
  rw [stateAfter_succ stored hop]
  exact applyOp_differs hredis hsim hluaOp (hops op (List.mem_of_getElem? hop)) hnot ht'

/-! ### The script from the stored text -/

theorem unique_opJson {op : UpdateOp} (h : OpTame op) : (opJson op).Unique := by
  have hstring : ∀ v : List String, Json.UniqueItems (v.map Json.string : List Value) := by
    intro v
    rw [Json.uniqueItems_iff]
    intro j hj
    obtain ⟨s, -, rfl⟩ := List.mem_map.mp hj
    trivial
  have hpath : ∀ (name : String) (path : Option MergePath) {value : Value}, value.Unique →
      (Json.object ([("type", .string name)] ++ mergePathJson path ++ [("value", value)]) : Value).Unique := by
    intro name path value hvalue
    rw [Json.unique_object]
    match path with
    | none => exact ⟨by simp [mergePathJson], by simp [mergePathJson, Json.Unique, hvalue]⟩
    | some (.single s) => exact ⟨by simp [mergePathJson], by simp [mergePathJson, Json.Unique, hvalue]⟩
    | some (.segments v) =>
      exact ⟨by simp [mergePathJson], by simp [mergePathJson, Json.Unique, hvalue, hstring]⟩
  cases op with
  | set path value =>
    have hv := Tame.unique h
    rw [opJson, Json.unique_object]
    exact ⟨by simp, by simp [Json.Unique, hv]⟩
  | merge path value => exact hpath "merge" path (Tame.unique h.1)
  | append path value => exact hpath "append" path (Tame.unique h)
  | _ =>
    rw [opJson, Json.unique_object]
    exact ⟨by simp, by simp [Json.Unique]⟩

/-- The two results are the same: one JSON value, and the same indices and codes of errors. -/
def Same (engine : Value × List UpdateOpError) (script : Option (Value × List UpdateOpError)) : Prop :=
  ∃ result, script = some result ∧ jsonEq engine.1 result.1 = true ∧ codes engine.2 = codes result.2

/-- What the script runs on: states related to the engine's, and the decoded operations. -/
theorem jsonUpdateScript_run {redis : Redis} (hredis : Faithful redis)
    (hstored : ∀ v, stored = some v → Tame v) (hops : ∀ op ∈ ops, OpTame op) :
    ∃ t luaOps, Sim (.start stored) t ∧ List.Forall₂ Decodes (ops.map opJson) luaOps ∧
      jsonUpdateScript redis stored ops = (Script.applyOps 0 luaOps t).bind fun t' =>
        (redis.encode t'.current).map fun newValue => (newValue, t'.errors) := by
  have hlua : ∃ luaOps, redis.decode (.array (ops.map opJson)) = .table luaOps [] ∧
      List.Forall₂ Decodes (ops.map opJson) luaOps := by
    have hunique : (Json.array (ops.map opJson) : Value).Unique := by
      rw [Json.unique_array]
      intro j hj
      obtain ⟨op, hop, rfl⟩ := List.mem_map.mp hj
      exact unique_opJson (hops op hop)
    exact decodes_array.mp (hredis.decode _ hunique)
  obtain ⟨luaOps, hluaOps, hall⟩ := hlua
  -- the value the script starts from, after its own encode and decode
  have hcurrent : ∃ j', redis.encode (if (redis.hget stored).truthy
        then redis.decode (stored.getD (.object [])) else .table [] []) = some j' ∧
      Decodes (stored.getD (.object [])) (redis.decode j') := by
    cases stored with
    | none =>
      refine ⟨.object [], by simp [Redis.hget, LuaValue.truthy, Redis.encode, Redis.encodeFields], ?_⟩
      exact hredis.decode _ (Json.unique_object.mpr ⟨List.nodup_nil, fun m hm => by cases hm⟩)
    | some v =>
      have htame := hstored v rfl
      obtain ⟨j', hj', heq, hu⟩ := encode_of_decodes hredis v htame _ (hredis.decode v htame.unique)
      refine ⟨j', by simpa [Redis.hget, LuaValue.truthy] using hj', ?_⟩
      exact decodes_of_jsonEq v htame.unique j' _ heq (hredis.decode j' hu)
  obtain ⟨j', hj', hdec⟩ := hcurrent
  refine ⟨⟨redis.decode j', (redis.hget stored).isNil, []⟩, luaOps, ⟨hdec, ?_, ?_, ?_, rfl⟩, hall, ?_⟩
  · cases stored with
    | none => exact .inl rfl
    | some v => exact .inr (hstored v rfl)
  · intro hmissing
    cases stored with
    | none => rfl
    | some v => simp [State.start] at hmissing
  · cases stored <;> rfl
  · unfold jsonUpdateScript
    simp only [hj', hluaOps, ipairs, Option.bind_eq_bind, Option.bind_some]
    congr 1
    funext t'
    cases redis.encode t'.current <;> rfl

end Runs

/-! ### A Redis that decodes in order -/

mutual
def decodeValue : Value → LuaValue
  | .null => .null
  | .bool b => .boolean b
  | .number n => .number n.asDouble
  | .string s => .string s
  | .array items => .table (decodeItems items) []
  | .object members => .table [] (decodeMembers members)
def decodeItems : List Value → List LuaValue
  | [] => []
  | j :: rest => decodeValue j :: decodeItems rest
def decodeMembers : List (String × Value) → List (String × LuaValue)
  | [] => []
  | m :: rest => (m.1, decodeValue m.2) :: decodeMembers rest
end

/-- An integral double is spelled as an integer. -/
def spellDouble (f : F64) : Number :=
  match I64.of (f.value / F64.one) with
  | some i => if i.1 * F64.one = f.value ∧ i.1.natAbs ≤ maxSafeInteger then .ofI64 i else .float f
  | none => .float f

def plainRedis : Redis := ⟨fun _ => "", decodeValue, spellDouble⟩

theorem decodeMembers_eq (members : List (String × Value)) :
    decodeMembers members = members.map fun m => (m.1, decodeValue m.2) := by
  induction members with
  | nil => rfl
  | cons m rest ih => rw [decodeMembers, ih, List.map_cons]

theorem decodes_decodeValue (j : Value) (hj : j.Unique) : Decodes j (decodeValue j) := by
  induction j using Json.ind with
  | number n =>
    obtain ⟨f, hf, hvalue⟩ := n.asDouble_value
    exact ⟨f, by rw [decodeValue, hf], hvalue⟩
  | array items ih =>
    rw [Json.unique_array] at hj
    rw [decodes_array]
    refine ⟨_, by rw [decodeValue], ?_⟩
    induction items with
    | nil => exact .nil
    | cons j rest ihrest =>
      exact .cons (ih j (List.mem_cons_self ..) (hj j (List.mem_cons_self ..)))
        (ihrest (fun k hk => ih k (List.mem_cons_of_mem _ hk)) fun k hk => hj k (List.mem_cons_of_mem _ hk))
  | object members ih =>
    obtain ⟨hdistinct, hu⟩ := Json.unique_object.mp hj
    rw [decodes_object]
    refine ⟨_, by rw [decodeValue], hdistinct, ?_, fun key => ?_⟩
    · unfold Assoc.Distinct
      rw [decodeMembers_eq, List.map_map]
      exact hdistinct
    · rw [decodeMembers_eq, Assoc.get?_map]
      cases hget : Assoc.get? members key with
      | none => exact .inl ⟨rfl, rfl⟩
      | some j =>
        have hmem := Assoc.mem_of_get? hget
        exact .inr ⟨j, _, rfl, rfl, ih _ hmem (hu _ hmem)⟩
  | _ => rw [decodeValue, Decodes]

theorem plainRedis_faithful : Faithful plainRedis where
  decode := decodes_decodeValue
  number := by
    intro n f hn hf
    rw [← hf]
    show (spellDouble f).asF64 = f.value
    unfold spellDouble
    split
    · split
      · rename_i i _ hi
        have hsafe : (Number.ofI64 i).Safe := (Number.safe_ofI64 i).mpr hi.2
        rw [hsafe.asF64, Number.toInt_ofI64, hi.1]
      · rfl
    · rfl

/-! ### Agreement -/

section Agreement
variable {stored : Option Value} {ops : List UpdateOp}

/-- After every prefix of the operations the engine and the script have the same value and
the same errors, exactly when every operation takes a mirrored branch. -/
theorem applyUpdateOps_agrees_iff {redis : Redis} (hredis : Faithful redis)
    (hstored : ∀ v, stored = some v → Tame v) (hops : ∀ op ∈ ops, OpTame op)
    (hsafe : ∀ n, Safe (stateAfter stored ops n).current) :
    (∀ n, Same (applyUpdateOps stored (ops.take n)) (jsonUpdateScript redis stored (ops.take n))) ↔
      ∀ n op, ops[n]? = some op →
        Mirrored (stateAfter stored ops n).usingMissingDefault (stateAfter stored ops n).current op := by
  have htake : ∀ n, ∀ op ∈ ops.take n, OpTame op := fun n op hop => hops op (List.mem_of_mem_take hop)
  constructor
  · intro hsame
    -- the operations before the first one that is not mirrored, one at a time
    have hupto : ∀ n, MirroredUpTo stored ops n := by
      intro n
      induction n with
      | zero => exact fun k op hk => absurd hk (Nat.not_lt_zero k)
      | succ n ih =>
        intro k op hk hop
        rcases Nat.lt_succ_iff_lt_or_eq.mp hk with hk | rfl
        · exact ih k op hk hop
        · by_contra hnot
          obtain ⟨t, luaOps, hstart, hdec, hscript⟩ := jsonUpdateScript_run hredis hstored (htake (k + 1))
          obtain ⟨result, hresult, heq, hcodes⟩ := hsame (k + 1)
          rw [hscript] at hresult
          obtain ⟨t', ht', hencode⟩ := Option.bind_eq_some_iff.mp hresult
          obtain ⟨newValue, hnew, rfl⟩ := Option.map_eq_some_iff.mp hencode
          exact run_differs hredis hops hsafe hstart ih hop hnot hdec ht' ⟨newValue, hnew, heq, hcodes⟩
    exact fun n op hop => hupto (n + 1) n op (Nat.lt_succ_self n) hop
  · intro hm n
    obtain ⟨t, luaOps, hstart, hdec, hscript⟩ := jsonUpdateScript_run hredis hstored (htake n)
    obtain ⟨t', ht', hsim⟩ := run_agree hops hsafe hstart n (fun k op _ hop => hm k op hop) luaOps hdec
    obtain ⟨newValue, hnew, heq, hcodes⟩ := hsim.shows hredis
    refine ⟨(newValue, t'.errors), ?_, heq, hcodes⟩
    rw [hscript, ht', Option.bind_some, hnew]
    rfl

def counter (n : Fin (2 ^ 64)) : Value := .object [("n", .number (.posInt n))]

def addTwo : List UpdateOp := [.increment "n" ⟨2, by decide⟩]

def addOneAtRoot : List UpdateOp := [.increment "" ⟨1, by decide⟩]

theorem safe_counter {n : Fin (2 ^ 64)} (h : n.1 ≤ maxSafeInteger) : Safe (counter n) := by
  unfold Safe counter
  rw [Json.all_object]
  simpa [Json.All, Number.Safe] using h

/-- A counter that exists is counted alike. -/
theorem applyUpdateOps_agrees_counter :
    Same (applyUpdateOps (some (counter 1)) addTwo) (jsonUpdateScript plainRedis (some (counter 1)) addTwo) := by
  show Same (applyUpdateOps (some (counter 1)) (addTwo.take 1))
    (jsonUpdateScript plainRedis (some (counter 1)) (addTwo.take 1))
  refine (applyUpdateOps_agrees_iff plainRedis_faithful ?_ ?_ ?_).mpr ?_ 1
  · rintro v ⟨⟩
    unfold counter
    rw [tame_object]
    exact ⟨by simp, by simp [Assoc.Distinct], by simp [Tame, Number.Safe, maxSafeInteger]⟩
  · intro op hop
    rw [List.mem_singleton.mp hop]
    show (Number.ofI64 ⟨2, _⟩).Safe
    rw [Number.safe_ofI64]
    decide
  · intro n
    cases n with
    | zero => exact safe_counter (n := 1) (by decide)
    | succ n =>
      have hstate : (stateAfter (some (counter 1)) addTwo (n + 1)).current = counter 3 := by
        rw [stateAfter, addTwo, List.take_succ_cons, List.take_nil]
        rfl
      rw [hstate]
      exact safe_counter (by decide)
  · intro n op hop
    cases n with
    | zero =>
      cases hop
      exact fun _ => id
    | succ n => cases hop

/-- The script never sees that a field is missing: `HGET` answers `false`, not `nil`. Counting at
the root of a missing field succeeds in the engine and is an error in the script. -/
theorem applyUpdateOps_differs_missing :
    Faithful plainRedis ∧ (∀ op ∈ addOneAtRoot, OpTame op) ∧
      (∀ n, Safe (stateAfter none addOneAtRoot n).current) ∧
      ¬ Same (applyUpdateOps none addOneAtRoot) (jsonUpdateScript plainRedis none addOneAtRoot) := by
  refine ⟨plainRedis_faithful, fun op hop => ?_, fun n => ?_, ?_⟩
  · rw [List.mem_singleton.mp hop]
    show (Number.ofI64 ⟨1, _⟩).Safe
    rw [Number.safe_ofI64]
    decide
  · cases n with
    | zero => exact Json.all_object.mpr fun m hm => by cases hm
    | succ n =>
      have hstate : (stateAfter none addOneAtRoot (n + 1)).current = .number (.posInt 1) := by
        rw [stateAfter, addOneAtRoot, List.take_succ_cons, List.take_nil]
        rfl
      rw [hstate]
      show (1 : Nat) ≤ maxSafeInteger
      decide
  · rintro ⟨result, hresult, -, hcodes⟩
    have hscript : (jsonUpdateScript plainRedis none addOneAtRoot).map (codes ·.2) =
        some [(0, "increment.not_number")] := by
      rfl
    rw [hresult, Option.map_some, ← hcodes] at hscript
    exact absurd hscript (by decide)

end Agreement

end Iii.Update
