import Iii.Filter.Grammar

/-! The normal form is canonical for the structure of `$and`.

`Alike` is what it means to differ only in form: two filters hold the same clauses, in whatever order, under however
many `$and`s and however often, where two clauses are the same when their members, operands and operators are alike
in turn. It says nothing of sorting or of text. Alike filters have the same normal form as JSON values
(`Filter.normalized_canonical`). What carries it is that a clause is sorted and dropped by its key and the canonical
text of its operand, that this text determines the operand up to the order of keys, and that a strictly ascending
list is determined by its members (`map_sortedOnce`).

The maps of a JSON value have no order. Two readings of one value with the members of the maps in another order are
alike, are accepted together, and so come out the same. -/
namespace Iii.Filter
open Lib

/-! ### Clauses of a filter -/

/-- `c` is a clause of the filter: of its object, or of a filter under its `$and`. -/
inductive HasClause : Value → String × Value → Prop
  | own {map : List (String × Value)} {c : String × Value} (hc : c ∈ map) (h : c.1 ≠ "$and") :
      HasClause (.object map) c
  | and {map : List (String × Value)} {items : List Value} {i : Value} {c : String × Value}
      (hand : ("$and", .array items) ∈ map) (hi : i ∈ items) (h : HasClause i c) : HasClause (.object map) c

mutual
/-- The same clauses: each clause of one has an alike clause in the other. -/
inductive Alike : Value → Value → Prop
  | clauses {a b : Value} (there back : String × Value → String × Value)
      (hthere : ∀ c, HasClause a c → HasClause b (there c)) (alikeThere : ∀ c, HasClause a c → AlikeClause c (there c))
      (hback : ∀ d, HasClause b d → HasClause a (back d)) (alikeBack : ∀ d, HasClause b d → AlikeClause (back d) d) :
      Alike a b
inductive AlikeClause : String × Value → String × Value → Prop
  /-- The members of `$or` stand where they stood. -/
  | or {items items' : List Value} (hlen : items.length = items'.length)
      (h : ∀ p ∈ items.zip items', Alike p.1 p.2) : AlikeClause ("$or", .array items) ("$or", .array items')
  | not {v v' : Value} (h : Alike v v') : AlikeClause ("$not", v) ("$not", v')
  | path {key : String} {ops ops' : List (String × Value)} (hkey : clauseKey key = .path) (h : AlikeOps ops ops') :
      AlikeClause (key, .object ops) (key, .object ops')
/-- The same operators in any order. -/
inductive AlikeOps : List (String × Value) → List (String × Value) → Prop
  | ops {ops ops' : List (String × Value)} (names : ∀ name, name ∈ ops.map (·.1) ↔ name ∈ ops'.map (·.1))
      (h : ∀ name v v', (name, v) ∈ ops → (name, v') ∈ ops' → AlikeOperand name v v') : AlikeOps ops ops'
inductive AlikeOperand : String → Value → Value → Prop
  /-- A literal may have the keys of its objects in another order. -/
  | leaf {name : String} {v v' : Value} (hname : name ≠ "$any") (h : sortKeys v = sortKeys v') : AlikeOperand name v v'
  | anyOperators {ops ops' : List (String × Value)} (hops : isOperatorObject ops = true) (h : AlikeOps ops ops') :
      AlikeOperand "$any" (.object ops) (.object ops')
  | anyFilter {map map' : List (String × Value)} (h : Alike (.object map) (.object map')) :
      AlikeOperand "$any" (.object map) (.object map')
end

/-- Alike clauses can be found one by one. -/
theorem Alike.of_forall {a b : Value} (there : ∀ c, HasClause a c → ∃ d, HasClause b d ∧ AlikeClause c d)
    (back : ∀ d, HasClause b d → ∃ c, HasClause a c ∧ AlikeClause c d) : Alike a b := by
  classical
  refine .clauses (fun c => if h : HasClause a c then (there c h).choose else c)
    (fun d => if h : HasClause b d then (back d h).choose else d) ?_ ?_ ?_ ?_
  · intro c hc
    rw [dif_pos hc]
    exact (there c hc).choose_spec.1
  · intro c hc
    rw [dif_pos hc]
    exact (there c hc).choose_spec.2
  · intro d hd
    rw [dif_pos hd]
    exact (back d hd).choose_spec.1
  · intro d hd
    rw [dif_pos hd]
    exact (back d hd).choose_spec.2

/-- A clause in which the keys of the operand are in order. -/
def sortClause (c : String × Value) : String × Value := (c.1, sortKeys c.2)

theorem sortKeys_object' (map : List (String × Value)) :
    sortKeys (.object map) = .object ((map.map sortClause).insertionSort keyLe) := sortKeys_object map

variable {map map' : List (String × Value)}

/-- The order of the members does not survive `sortKeys`. -/
theorem sortKeys_object_congr (hu : (map.map (·.1)).Nodup) (h : (map.map sortClause).Perm (map'.map sortClause)) :
    sortKeys (.object map) = sortKeys (.object map') := by
  rw [sortKeys_object', sortKeys_object']
  congr 1
  have hsort := List.perm_insertionSort (keyLe (α := Value))
  refine ((hsort _).trans (h.trans (hsort _).symm)).eq_of_pairwise ?_
    (List.pairwise_insertionSort keyLe _) (List.pairwise_insertionSort keyLe _)
  -- Keys are distinct, so members with equal keys are the same member.
  intro c d hc hd hcd hdc
  have hkey : c.1 = d.1 := by
    refine String.toList_inj.mp (utf8Code.encode_injective ?_)
    exact le_antisymm hcd hdc
  rw [List.mem_insertionSort] at hc hd
  have hnodup : ((map.map sortClause).map (·.1)).Nodup := by
    rw [List.map_map]
    exact hu
  exact List.inj_on_of_nodup_map hnodup hc (h.symm.subset hd) hkey

theorem perm_of_sortKeys (h : sortKeys (.object map) = sortKeys (.object map')) :
    (map.map sortClause).Perm (map'.map sortClause) := by
  rw [sortKeys_object', sortKeys_object', Json.object.injEq] at h
  have hsort := List.perm_insertionSort (keyLe (α := Value))
  exact (hsort _).symm.trans (h ▸ hsort _)

/-! ### The normal form by its clauses -/

section Normal
variable (ft : FloatText)

variable {c d : String × Value} {map ops : List (String × Value)} {a b : Value}

theorem isAnd_iff : isAnd c = true ↔ c.1 = "$and" := by
  rw [isAnd, decide_eq_true_iff, clauseKey_and_iff]

/-- The clauses that are sorted are the clauses of the filter in normal form. -/
theorem mem_clausesOf_iff (v : Value) (c : String × Value) :
    c ∈ clausesOf ft v ↔ ∃ d, HasClause v d ∧ normalClause ft d = c := by
  constructor
  · refine (filter_induct (F := fun v => c ∈ clausesOf ft v → ∃ d, HasClause v d ∧ normalClause ft d = c)
      (O := fun _ => True) (fun map ih => ⟨fun h => ?_, trivial⟩) fun v hv h => ?_).1 v
    · rcases (mem_clausesOf_object ft).mp h with ⟨m, hm, hand, rfl⟩ | ⟨i, hi, hc⟩
      · refine ⟨m, .own hm fun hkey => ?_, rfl⟩
        rw [isAnd_iff.mpr hkey] at hand
        cases hand
      · obtain ⟨⟨key, value⟩, hm, hand, items, rfl, hi⟩ := mem_andItems.mp hi
        obtain rfl : key = "$and" := isAnd_iff.mp hand
        obtain ⟨d, hd, hdc⟩ := (ih _ hm).2.2 items rfl i hi hc
        exact ⟨d, .and hm hi hd, hdc⟩
    · rw [clausesOf_of_not_object ft hv] at h
      cases h
  · rintro ⟨d, hd, rfl⟩
    induction hd with
    | own hc hkey =>
      refine (mem_clausesOf_object ft).mpr (.inl ⟨_, hc, ?_, rfl⟩)
      rw [Bool.eq_false_iff]
      exact fun hand => hkey (isAnd_iff.mp hand)
    | and hand hi _ ih =>
      exact (mem_clausesOf_object ft).mpr (.inr ⟨_, mem_andItems.mpr ⟨_, hand, rfl, _, rfl, hi⟩, ih⟩)

theorem sortKeys_wrap (clauses : List (String × Value)) : sortKeys (wrap clauses) = wrap (clauses.map sortClause) := by
  have hsingle : ∀ c : String × Value, sortKeys (.object [c]) = .object [sortClause c] := fun c =>
    sortKeys_object' [c]
  cases clauses with
  | nil => rfl
  | cons c rest =>
    show sortKeys (.object [("$and", .array ((c :: rest).map fun c => .object [c]))]) =
      .object [("$and", .array (((c :: rest).map sortClause).map fun c => .object [c]))]
    have hitems : ((c :: rest).map fun c => Json.object [c]).map sortKeys =
        ((c :: rest).map sortClause).map fun c => Json.object [c] := by
      rw [List.map_map, List.map_map]
      exact List.map_congr_left fun c _ => hsingle c
    rw [hsingle, sortClause, sortKeys_array, hitems]

theorem pairOrder_congr (h : sortClause c = sortClause d) : pairOrder ft c = pairOrder ft d := by
  rw [sortClause, sortClause, Prod.mk.injEq] at h
  rw [pairOrder, pairOrder, canonical, canonical, h.1, h.2]

/-- The order sees the key and the operand, up to the order of keys. -/
theorem sortClause_of_pairOrder (h : pairOrder ft c = pairOrder ft d) :
    sortClause c = sortClause d := by
  obtain ⟨hkey, htext⟩ := Prod.mk.inj (toLex.injective h)
  have hutf8 : Function.Injective utf8 := fun s t hst => String.toList_inj.mp (utf8Code.encode_injective hst)
  rw [sortClause, sortClause, hutf8 hkey, canonical_inj ft (String.ofList_injective (hutf8 htext))]

theorem pairSame_iff (c d : String × Value) : pairSame ft c d ↔ pairOrder ft c = pairOrder ft d := by
  constructor
  · rintro ⟨hkey, htext⟩
    rw [pairOrder, pairOrder, hkey, htext]
  · intro h
    have hsort := sortClause_of_pairOrder ft h
    rw [sortClause, sortClause, Prod.mk.injEq] at hsort
    exact ⟨hsort.1, by rw [canonical, canonical, hsort.2]⟩

/-- A normal form is determined by which clauses there are. -/
theorem normal_congr
    (there : ∀ c, HasClause a c → ∃ d, HasClause b d ∧ sortClause (normalClause ft c) = sortClause (normalClause ft d))
    (back : ∀ d, HasClause b d → ∃ c, HasClause a c ∧ sortClause (normalClause ft c) = sortClause (normalClause ft d)) :
    sortKeys (normal ft a) = sortKeys (normal ft b) := by
  rw [normal, normal, sortKeys_wrap, sortKeys_wrap]
  congr 1
  have hkept : ∀ l, kept ft l = sortedOnce (pairOrder ft) (pairSame ft) l := fun _ => rfl
  rw [hkept, hkept]
  refine map_eq_of_map_eq (fun _ _ => sortClause_of_pairOrder ft) (map_sortedOnce (pairOrder ft) (pairSame_iff ft) ?_)
  intro x
  simp only [List.mem_map, mem_clausesOf_iff]
  constructor
  · rintro ⟨_, ⟨c, hc, rfl⟩, rfl⟩
    obtain ⟨d, hd, hcd⟩ := there c hc
    exact ⟨_, ⟨d, hd, rfl⟩, (pairOrder_congr ft hcd).symm⟩
  · rintro ⟨_, ⟨d, hd, rfl⟩, rfl⟩
    obtain ⟨c, hc, hcd⟩ := back d hd
    exact ⟨_, ⟨c, hc, rfl⟩, pairOrder_congr ft hcd⟩

theorem HasClause.unique {v : Value} (h : HasClause v c) (hu : v.Unique) : c.2.Unique := by
  induction h with
  | own hc _ => exact (Json.unique_object.mp hu).2 _ hc
  | and hand hi _ ih =>
    have hitems := (Json.unique_object.mp hu).2 _ hand
    exact ih (Json.unique_array.mp hitems _ hi)

/-- No clause has a value operator as its key, so a filter is not an operator object. -/
theorem AlikeClause.not_operator (h : AlikeClause c d) :
    isValueOperator c.1 = false ∧ isValueOperator d.1 = false := by
  have hcombinator : ∀ key ∈ ["$or", "$not"], isValueOperator key = false := by decide
  have hpath : ∀ {key}, clauseKey key = .path → isValueOperator key = false := by
    intro key hkey
    by_contra hv
    rw [Bool.not_eq_false] at hv
    have hname : ∀ name ∈ operatorNames, clauseKey name ≠ .path := by decide
    exact hname key (mem_operatorNames hv) hkey
  cases h with
  | path hkey _ => exact ⟨hpath hkey, hpath hkey⟩
  | _ => exact ⟨hcombinator _ (by simp), hcombinator _ (by simp)⟩

/-- An operator object has a clause that no filter has. -/
theorem exists_clause_of_operators (h : isOperatorObject map = true) :
    ∃ c, HasClause (.object map) c ∧ isValueOperator c.1 = true := by
  rw [isOperatorObject, Bool.and_eq_true, List.all_eq_true, Bool.not_eq_true', List.isEmpty_eq_false_iff] at h
  obtain ⟨c, hc⟩ := List.exists_mem_of_ne_nil map h.1
  refine ⟨c, .own hc fun hkey => ?_, h.2 c hc⟩
  have hv := h.2 c hc
  rw [hkey] at hv
  exact absurd hv (by decide)

theorem Alike.there (h : Alike a b) (hc : HasClause a c) :
    ∃ d, HasClause b d ∧ AlikeClause c d := by
  cases h with
  | clauses there _ hthere alikeThere _ _ => exact ⟨there c, hthere c hc, alikeThere c hc⟩

theorem Alike.back (h : Alike a b) (hd : HasClause b d) :
    ∃ c, HasClause a c ∧ AlikeClause c d := by
  cases h with
  | clauses _ back _ _ hback alikeBack => exact ⟨back d, hback d hd, alikeBack d hd⟩

theorem Alike.not_operators {map' : List (String × Value)} (h : Alike (.object map) (.object map')) :
    isOperatorObject map = false ∧ isOperatorObject map' = false := by
  constructor
  · by_contra hops
    rw [Bool.not_eq_false] at hops
    obtain ⟨c, hc, hv⟩ := exists_clause_of_operators hops
    obtain ⟨d, _, hcd⟩ := h.there hc
    exact Bool.false_ne_true (hcd.not_operator.1.symm.trans hv)
  · by_contra hops
    rw [Bool.not_eq_false] at hops
    obtain ⟨d, hd, hv⟩ := exists_clause_of_operators hops
    obtain ⟨c, _, hcd⟩ := h.back hd
    exact Bool.false_ne_true (hcd.not_operator.2.symm.trans hv)

/-! ### Alike filters have one normal form -/

theorem normalOps_keys (ops : List (String × Value)) : (normalOps ft ops).map (·.1) = ops.map (·.1) := by
  rw [normalOps_eq, List.map_map]
  rfl

/-- What the induction says of operator objects. -/
def SameOps (ops ops' : List (String × Value)) : Prop :=
  sortKeys (.object ((normalOps ft ops).insertionSort keyLe)) =
    sortKeys (.object ((normalOps ft ops').insertionSort keyLe))

/-- Two objects with the same operators, each alike in normal form. -/
theorem sameOps {ops' : List (String × Value)} (hu : (ops.map (·.1)).Nodup) (hu' : (ops'.map (·.1)).Nodup)
    (names : ∀ name, name ∈ ops.map (·.1) ↔ name ∈ ops'.map (·.1))
    (h : ∀ name v v', (name, v) ∈ ops → (name, v') ∈ ops' →
      sortClause (normalOp ft (name, v)) = sortClause (normalOp ft (name, v'))) : SameOps ft ops ops' := by
  have hperm : ∀ ops, ((normalOps ft ops).insertionSort keyLe).Perm (normalOps ft ops) := fun ops =>
    List.perm_insertionSort _ _
  have hnodup : ∀ {ops : List (String × Value)}, (ops.map (·.1)).Nodup →
      (((normalOps ft ops).map sortClause).map (·.1)).Nodup := by
    intro ops hu
    rw [List.map_map]
    show ((normalOps ft ops).map (·.1)).Nodup
    rwa [normalOps_keys]
  refine sortKeys_object_congr ?_ ?_
  · rw [((hperm ops).map _).nodup_iff, normalOps_keys]
    exact hu
  · refine ((hperm ops).map _).trans (List.Perm.trans ?_ ((hperm ops').map _).symm)
    rw [List.perm_ext_iff_of_nodup (hnodup hu).of_map (hnodup hu').of_map]
    intro x
    rw [normalOps_eq, normalOps_eq, List.map_map, List.map_map, List.mem_map, List.mem_map]
    simp only [List.mem_map, Prod.exists] at names ⊢
    constructor
    · rintro ⟨name, v, hv, rfl⟩
      obtain ⟨_, v', hv', rfl⟩ := (names name).mp ⟨name, v, hv, rfl⟩
      exact ⟨_, v', hv', (h _ v v' hv hv').symm⟩
    · rintro ⟨name, v', hv', rfl⟩
      obtain ⟨_, v, hv, rfl⟩ := (names name).mpr ⟨name, v', hv', rfl⟩
      exact ⟨_, v, hv, h _ v v' hv hv'⟩

theorem isOperatorObject_of_names {ops' : List (String × Value)}
    (names : ∀ name, name ∈ ops.map (·.1) ↔ name ∈ ops'.map (·.1)) (h : isOperatorObject ops = true) :
    isOperatorObject ops' = true := by
  rw [isOperatorObject, Bool.and_eq_true, List.all_eq_true, Bool.not_eq_true', List.isEmpty_eq_false_iff] at h ⊢
  constructor
  · rintro rfl
    obtain ⟨o, ho⟩ := List.exists_mem_of_ne_nil ops h.1
    exact List.not_mem_nil ((names o.1).mp (List.mem_map_of_mem ho))
  · intro o' ho'
    obtain ⟨o, ho, hkey⟩ := List.mem_map.mp ((names o'.1).mpr (List.mem_map_of_mem ho'))
    rw [← hkey]
    exact h.2 o ho

/-- **Alike filters have the same normal form**, as JSON values. -/
theorem normal_of_alike (h : Alike a b) (ha : a.Unique) (hb : b.Unique) :
    sortKeys (normal ft a) = sortKeys (normal ft b) := by
  -- The induction follows `Alike`: filters, clauses, operator objects, operands.
  refine @Alike.rec
    (fun a b _ => a.Unique → b.Unique → sortKeys (normal ft a) = sortKeys (normal ft b))
    (fun c d _ => c.2.Unique → d.2.Unique → sortClause (normalClause ft c) = sortClause (normalClause ft d))
    (fun ops ops' _ => Json.Unique (.object ops) → Json.Unique (.object ops') →
      SameOps ft ops ops' ∧ (isOperatorObject ops = true → isOperatorObject ops' = true))
    (fun name v v' _ => v.Unique → v'.Unique → sortClause (normalOp ft (name, v)) = sortClause (normalOp ft (name, v')))
    ?clauses ?or ?not ?path ?ops ?leaf ?anyOperators ?anyFilter a b h ha hb
  case clauses =>
    intro a b there back hthere _ hback _ ihThere ihBack ha hb
    refine normal_congr ft (fun c hc => ⟨there c, hthere c hc, ?_⟩) fun d hd => ⟨back d, hback d hd, ?_⟩
    · exact ihThere c hc (hc.unique ha) ((hthere c hc).unique hb)
    · exact ihBack d hd ((hback d hd).unique ha) (hd.unique hb)
  case or =>
    intro items items' hlen _ ih hu hu'
    have hitems : items.map (sortKeys ∘ normal ft) = items'.map (sortKeys ∘ normal ft) := by
      refine map_congr_zip hlen fun p hp => ?_
      obtain ⟨hp1, hp2⟩ := List.of_mem_zip hp
      exact ih p hp (Json.unique_array.mp hu _ hp1) (Json.unique_array.mp hu' _ hp2)
    rw [normalClause_or, normalClause_or, sortClause, sortClause, sortKeys_array, sortKeys_array, List.map_map,
      List.map_map, hitems]
  case not =>
    intro v v' _ ih hu hu'
    rw [normalClause_not, normalClause_not, sortClause, sortClause, ih hu hu']
  case path =>
    intro key ops ops' hkey _ ih hu hu'
    rw [normalClause_path ft hkey, normalClause_path ft hkey, sortClause, sortClause, (ih hu hu').1]
  case ops =>
    intro ops ops' names _ ih hu hu'
    rw [Json.unique_object] at hu hu'
    exact ⟨sameOps ft hu.1 hu'.1 names fun name v v' hv hv' => ih name v v' hv hv' (hu.2 _ hv) (hu'.2 _ hv'),
      isOperatorObject_of_names names⟩
  case leaf =>
    intro name v v' hname hsort _ _
    have hleaf (v : Value) : normalOp ft (name, v) = (name, v) := normalOp_leaf ft fun hany => hname (opName_any hany)
    rw [hleaf, hleaf, sortClause, sortClause, hsort]
  case anyOperators =>
    intro ops ops' hops _ ih hu hu'
    obtain ⟨hsame, hobject⟩ := ih hu hu'
    rw [normalOp_operators ft rfl hops, normalOp_operators ft rfl (hobject hops), sortClause, sortClause, hsame]
  case anyFilter =>
    intro map map' h ih hu hu'
    rw [normalOp_filter ft rfl h.not_operators.1, normalOp_filter ft rfl h.not_operators.2, sortClause, sortClause, ih hu hu']

/-! ### Another order of keys -/

theorem sorted_clauses (map : List (String × Value)) :
    ((map.map sortClause).insertionSort keyLe).Perm (map.map sortClause) := List.perm_insertionSort _ _

theorem length_sorted (map : List (String × Value)) :
    ((map.map sortClause).insertionSort keyLe).length = map.length := by
  rw [List.length_insertionSort, List.length_map]

theorem isEmpty_sorted (map : List (String × Value)) :
    ((map.map sortClause).insertionSort keyLe).isEmpty = map.isEmpty := by
  rw [Bool.eq_iff_iff, List.isEmpty_iff_length_eq_zero, List.isEmpty_iff_length_eq_zero, length_sorted]

theorem forall_sorted {P : String × Value → Prop} (map : List (String × Value)) :
    (∀ m ∈ (map.map sortClause).insertionSort keyLe, P m) ↔ ∀ m ∈ map, P (sortClause m) := by
  simp only [List.mem_insertionSort, List.forall_mem_map]

theorem depth_sortKeys (v : Value) : (sortKeys v).depth = v.depth := by
  induction v using Json.ind with
  | array items ih =>
    rw [sortKeys_array]
    refine eq_of_forall_ge_iff fun k => ?_
    rw [Json.depth_array_le, Json.depth_array_le, List.forall_mem_map]
    exact and_congr_right fun _ => forall₂_congr fun j hj => by rw [ih j hj]
  | object map ih =>
    rw [sortKeys_object']
    refine eq_of_forall_ge_iff fun k => ?_
    rw [Json.depth_object_le, Json.depth_object_le, forall_sorted]
    exact and_congr_right fun _ => forall₂_congr fun m hm => by rw [sortClause, ih m hm]
  | _ => rfl

theorem encodedSize_sortKeys (v : Value) : encodedSize ft (sortKeys v) = encodedSize ft v := by
  induction v using Json.ind with
  | array items ih =>
    have hsizes : (items.map sortKeys).map (encodedSize ft) = items.map (encodedSize ft) := by
      rw [List.map_map]
      exact List.map_congr_left fun j hj => ih j hj
    rw [sortKeys_array, encodedSize_array, encodedSize_array, List.length_map, hsizes]
  | object map ih =>
    have hperm := sorted_clauses map
    rw [sortKeys_object', encodedSize_object, encodedSize_object, length_sorted, (hperm.map _).sum_eq,
      (hperm.map _).sum_eq, List.map_map, List.map_map]
    congr 2
    exact List.map_congr_left fun m hm => ih m hm
  | _ => rfl

theorem numbersOk_sortKeys (v : Value) : numbersOk (sortKeys v) = numbersOk v := by
  induction v using Json.ind with
  | array items ih =>
    rw [Bool.eq_iff_iff, sortKeys_array, numbersOk_array, numbersOk_array, List.forall_mem_map]
    exact forall₂_congr fun j hj => by rw [ih j hj]
  | object map ih =>
    rw [Bool.eq_iff_iff, sortKeys_object', numbersOk_object, numbersOk_object, forall_sorted]
    exact forall₂_congr fun m hm => by rw [sortClause, ih m hm]
  | _ => rfl

theorem literalOk_sortKeys (v : Value) : literalOk (sortKeys v) = literalOk v := by
  rw [literalOk, literalOk, numbersOk_sortKeys, depth_sortKeys]

theorem leafOk_sortKeys (name : String) (v : Value) : leafOk name (sortKeys v) = leafOk name v := by
  have hliteral := literalOk_sortKeys v
  cases v with
  | array items =>
    have hitems : (items.map sortKeys).all literalOk = items.all literalOk := by
      rw [List.all_map]
      exact all_congr_mem fun j _ => literalOk_sortKeys j
    rw [sortKeys_array] at hliteral ⊢
    unfold leafOk
    cases opName name <;> simp only [hliteral, hitems, List.length_map]
  | object map =>
    rw [sortKeys_object'] at hliteral ⊢
    unfold leafOk
    cases opName name <;> simp only [hliteral]
  | _ => rfl

/-- Which values are filters does not depend on the order of keys. -/
theorem filterOk_sortKeys :
    (∀ v : Value, ∀ n inAny, filterOk n inAny (sortKeys v) = filterOk n inAny v) ∧
    ∀ map : List (String × Value), ∀ n, opsOk n ((map.map sortClause).insertionSort keyLe) = opsOk n map := by
  refine filter_induct (fun map ih => ⟨fun n inAny => ?_, fun n => ?_⟩) fun v hv n inAny => ?_
  · rw [sortKeys_object', filterOk_object, filterOk_object, (sorted_clauses map).all_eq, List.all_map]
    congr 1
    refine all_congr_mem fun m hm => ?_
    obtain ⟨key, value⟩ := m
    obtain ⟨hF, hO, hitems⟩ := ih _ hm
    show clauseOk n inAny (key, sortKeys value) = clauseOk n inAny (key, value)
    unfold clauseOk
    cases value with
    | array items =>
      have hall : ∀ n, (items.map sortKeys).all (filterOk n inAny) = items.all (filterOk n inAny) := by
        intro n
        rw [List.all_map]
        exact all_congr_mem fun i hi => hitems items rfl i hi n inAny
      cases hk : clauseKey key with
      | not => exact hF (n - 1) inAny
      | _ => simp only [sortKeys_array, hall, List.isEmpty_map]
    | object ops =>
      cases hk : clauseKey key with
      | not => exact hF (n - 1) inAny
      | path =>
        have hdollar : ((ops.map sortClause).insertionSort keyLe).all (fun m => startsWithDollar m.1) =
            ops.all (fun m => startsWithDollar m.1) := by
          rw [(sorted_clauses ops).all_eq, List.all_map]
          rfl
        simp only [sortKeys_object', isEmpty_sorted, hdollar, hO ops rfl]
      | _ => simp only [sortKeys_object']
    | _ => rfl
  · rw [opsOk_eq, opsOk_eq, (sorted_clauses map).all_eq, List.all_map]
    refine all_congr_mem fun m hm => ?_
    obtain ⟨name, operand⟩ := m
    obtain ⟨hF, hO, -⟩ := ih _ hm
    show opOk n (name, sortKeys operand) = opOk n (name, operand)
    by_cases hn : opName name = .any
    · unfold opOk
      rw [if_pos hn, if_pos hn]
      cases operand with
      | object ops =>
        simp only [hF (n - 1) true]
        simp only [sortKeys_object', show isOperatorObject ((ops.map sortClause).insertionSort keyLe) =
          isOperatorObject ops from isOperatorObject_sorted ops, hO ops rfl]
      | array items => simp only [sortKeys_array]
      | _ => rfl
    · unfold opOk
      rw [if_neg hn, if_neg hn]
      exact leafOk_sortKeys name operand
  · cases v with
    | object map => exact absurd rfl (hv map)
    | array items => rw [sortKeys_array]; rfl
    | _ => rfl

theorem filterNodes_sortKeys :
    (∀ v : Value, filterNodes (sortKeys v) = filterNodes v) ∧
    ∀ map : List (String × Value), opsNodes ((map.map sortClause).insertionSort keyLe) = opsNodes map := by
  refine filter_induct (fun map ih => ⟨?_, ?_⟩) fun v hv => ?_
  · rw [sortKeys_object', filterNodes_object, filterNodes_object, ((sorted_clauses map).map _).sum_eq, List.map_map]
    refine congrArg List.sum (List.map_congr_left fun m hm => ?_)
    obtain ⟨key, value⟩ := m
    obtain ⟨hF, hO, hitems⟩ := ih _ hm
    show clauseNodes (key, sortKeys value) = clauseNodes (key, value)
    unfold clauseNodes
    cases value with
    | array items =>
      have hsum : ((items.map sortKeys).map filterNodes).sum = (items.map filterNodes).sum := by
        rw [List.map_map]
        exact congrArg List.sum (List.map_congr_left fun i hi => hitems items rfl i hi)
      cases hk : clauseKey key with
      | not => simp only [hF]
      | _ => simp only [sortKeys_array, hsum]
    | object ops =>
      cases hk : clauseKey key with
      | not => simp only [hF]
      | _ => simp only [sortKeys_object', hO ops rfl]
    | _ => rfl
  · rw [opsNodes_eq, opsNodes_eq, ((sorted_clauses map).map _).sum_eq, List.map_map]
    refine congrArg List.sum (List.map_congr_left fun m hm => ?_)
    obtain ⟨name, operand⟩ := m
    obtain ⟨hF, hO, -⟩ := ih _ hm
    show opNodes (name, sortKeys operand) = opNodes (name, operand)
    by_cases hn : opName name = .any
    · unfold opNodes
      rw [if_pos hn, if_pos hn]
      cases operand with
      | object ops =>
        simp only [hF]
        simp only [sortKeys_object', show isOperatorObject ((ops.map sortClause).insertionSort keyLe) =
          isOperatorObject ops from isOperatorObject_sorted ops, hO ops rfl]
      | array items => simp only [sortKeys_array]
      | _ => rfl
    · unfold opNodes
      rw [if_neg hn, if_neg hn]
  · cases v with
    | object map => exact absurd rfl (hv map)
    | array items => rw [sortKeys_array]; rfl
    | _ => rfl

/-- A value with the keys in another order is accepted too. -/
theorem parsed_of_sortKeys {limit : SizeLimit} {f : Filter} (h : sortKeys a = sortKeys b)
    (hf : Filter.fromParsed <$> Parsed.parse ft a limit = .ok f) :
    ∃ g, Filter.fromParsed <$> Parsed.parse ft b limit = .ok g := by
  obtain ⟨p, hp, -⟩ := Filter.map_fromParsed_ok hf
  obtain ⟨hadm, hsize, -⟩ := parsed_ok ft hp
  have hb : Admissible b := by
    refine ⟨?_, ?_, ?_⟩
    · rw [← depth_sortKeys, ← h, depth_sortKeys]
      exact hadm.nesting
    · rw [← filterOk_sortKeys.1, ← h, filterOk_sortKeys.1]
      exact hadm.valid
    · rw [← filterNodes_sortKeys.1, ← h, filterNodes_sortKeys.1]
      exact hadm.nodes
  have hsizeb : limit = .enforce → encodedSize ft b ≤ maxEncodedBytes := by
    intro hlimit
    rw [← encodedSize_sortKeys, ← h, encodedSize_sortKeys]
    exact hsize hlimit
  obtain ⟨q, hq⟩ := parsed_of_admissible ft hb hsizeb
  exact ⟨Filter.fromParsed q, by rw [hq]; rfl⟩

end Normal

theorem exists_of_perm (h : (map.map sortClause).Perm (map'.map sortClause)) {m : String × Value} (hm : m ∈ map) :
    ∃ m' ∈ map', sortClause m = sortClause m' := by
  obtain ⟨m', hm', heq⟩ := List.mem_map.mp (h.subset (List.mem_map_of_mem hm))
  exact ⟨m', hm', heq.symm⟩

theorem object_of_sortKeys {v : Value} (h : sortKeys (.object map) = sortKeys v) :
    ∃ map', v = .object map' ∧ (map.map sortClause).Perm (map'.map sortClause) := by
  cases v with
  | object map' => exact ⟨map', rfl, perm_of_sortKeys h⟩
  | array items =>
    rw [sortKeys_object', sortKeys_array] at h
    cases h
  | _ =>
    rw [sortKeys_object'] at h
    cases h

theorem array_of_sortKeys {items : List Value} {v : Value} (h : sortKeys (.array items) = sortKeys v) :
    ∃ items', v = .array items' ∧ items.map sortKeys = items'.map sortKeys := by
  cases v with
  | array items' =>
    rw [sortKeys_array, sortKeys_array, Json.array.injEq] at h
    exact ⟨items', rfl, h⟩
  | object map =>
    rw [sortKeys_object', sortKeys_array] at h
    cases h
  | _ =>
    rw [sortKeys_array] at h
    cases h

theorem exists_of_items {items items' : List Value} (h : items.map sortKeys = items'.map sortKeys) {i : Value}
    (hi : i ∈ items) : ∃ i' ∈ items', sortKeys i = sortKeys i' := by
  have hmem : sortKeys i ∈ items'.map sortKeys := h ▸ List.mem_map_of_mem hi
  obtain ⟨i', hi', heq⟩ := List.mem_map.mp hmem
  exact ⟨i', hi', heq.symm⟩

/-- Operators in another order, with the keys of their operands in another order. -/
theorem alikeOps_of_perm {ops ops' : List (String × Value)} (hu : (ops.map (·.1)).Nodup)
    (h : (ops.map sortClause).Perm (ops'.map sortClause))
    (hoperand : ∀ o ∈ ops, ∀ v', sortKeys o.2 = sortKeys v' → (o.1, v') ∈ ops' → AlikeOperand o.1 o.2 v') :
    AlikeOps ops ops' := by
  refine .ops (fun name => ?_) fun name v v' hv hv' => ?_
  · have hkeys : ∀ l : List (String × Value), l.map (·.1) = (l.map sortClause).map (·.1) := fun l => by
      rw [List.map_map]
      rfl
    rw [hkeys, hkeys ops']
    exact (h.map _).mem_iff
  · refine hoperand (name, v) hv v' ?_ hv'
    obtain ⟨⟨name', w⟩, hw, heq⟩ := exists_of_perm h.symm hv'
    rw [sortClause, sortClause, Prod.mk.injEq] at heq
    obtain ⟨rfl, hsort⟩ := heq
    -- One name, one operator.
    have hsame : (name, v) = (name, w) := List.inj_on_of_nodup_map hu hv hw rfl
    rw [Prod.mk.injEq] at hsame
    rw [hsame.2, ← hsort]

/-- **A filter with the keys of its objects in another order is alike.** -/
theorem alike_of_sortKeys {inAny : Bool} {a b : Value} (hfilter : IsFilter inAny a) (ha : a.Unique) (hb : b.Unique)
    (h : sortKeys a = sortKeys b) : Alike a b := by
  refine @IsFilter.rec
    (fun _ a _ => a.Unique → ∀ b : Value, b.Unique → sortKeys a = sortKeys b → Alike a b)
    (fun _ c _ => c.2.Unique → ∀ v' : Value, v'.Unique → sortKeys c.2 = sortKeys v' →
      (c.1 ≠ "$and" → AlikeClause c (c.1, v')) ∧ (c.1 = "$and" → ∃ items items', c.2 = .array items ∧ v' = .array items' ∧
        items.map sortKeys = items'.map sortKeys ∧ ∀ i ∈ items, ∀ i' ∈ items', sortKeys i = sortKeys i' → Alike i i'))
    (fun o _ => o.2.Unique → ∀ v' : Value, v'.Unique → sortKeys o.2 = sortKeys v' → AlikeOperand o.1 o.2 v')
    ?object ?and ?or ?not ?path ?leaf ?anyOperators ?anyFilter inAny a hfilter ha b hb h
  case object =>
    intro inAny map _ ih hu b hb h
    obtain ⟨map', rfl, hperm⟩ := object_of_sortKeys h
    rw [Json.unique_object] at hu hb
    refine .of_forall (fun c hc => ?_) fun d hd => ?_
    · cases hc with
      | own hm hkey =>
        obtain ⟨⟨key, v'⟩, hm', heq⟩ := exists_of_perm hperm hm
        rw [sortClause, sortClause, Prod.mk.injEq] at heq
        obtain ⟨rfl, hsort⟩ := heq
        exact ⟨_, .own hm' hkey, (ih _ hm (hu.2 _ hm) v' (hb.2 _ hm') hsort).1 hkey⟩
      | and hm hi hc =>
        obtain ⟨⟨key, v'⟩, hm', heq⟩ := exists_of_perm hperm hm
        rw [sortClause, sortClause, Prod.mk.injEq] at heq
        obtain ⟨rfl, hsort⟩ := heq
        obtain ⟨items, items', hitems, rfl, hmap, halike⟩ := (ih _ hm (hu.2 _ hm) v' (hb.2 _ hm') hsort).2 rfl
        cases hitems
        obtain ⟨i', hi', hii'⟩ := exists_of_items hmap hi
        obtain ⟨d, hd, hcd⟩ := (halike _ hi i' hi' hii').there hc
        exact ⟨d, .and hm' hi' hd, hcd⟩
    · cases hd with
      | own hm' hkey =>
        obtain ⟨⟨key, v⟩, hm, heq⟩ := exists_of_perm hperm.symm hm'
        rw [sortClause, sortClause, Prod.mk.injEq] at heq
        obtain ⟨rfl, hsort⟩ := heq
        exact ⟨_, .own hm hkey, (ih _ hm (hu.2 _ hm) _ (hb.2 _ hm') hsort.symm).1 hkey⟩
      | and hm' hi' hd =>
        obtain ⟨⟨key, v⟩, hm, heq⟩ := exists_of_perm hperm.symm hm'
        rw [sortClause, sortClause, Prod.mk.injEq] at heq
        obtain ⟨rfl, hsort⟩ := heq
        obtain ⟨items, items', rfl, hitems', hmap, halike⟩ :=
          (ih _ hm (hu.2 _ hm) _ (hb.2 _ hm') hsort.symm).2 rfl
        cases hitems'
        obtain ⟨i, hi, hii'⟩ := exists_of_items hmap.symm hi'
        obtain ⟨c, hc, hcd⟩ := (halike i hi _ hi' hii'.symm).back hd
        exact ⟨c, .and hm hi hc, hcd⟩
  case and =>
    intro inAny items _ _ ih hu v' hu' hsort
    obtain ⟨items', rfl, hmap⟩ := array_of_sortKeys hsort
    rw [Json.unique_array] at hu hu'
    exact ⟨fun hkey => absurd rfl hkey, fun _ => ⟨items, items', rfl, rfl, hmap, fun i hi i' hi' hii' =>
      ih i hi (hu i hi) i' (hu' i' hi') hii'⟩⟩
  case or =>
    intro inAny items _ _ ih hu v' hu' hsort
    obtain ⟨items', rfl, hmap⟩ := array_of_sortKeys hsort
    rw [Json.unique_array] at hu hu'
    have hlen : items.length = items'.length := by
      have hlen := congrArg List.length hmap
      rwa [List.length_map, List.length_map] at hlen
    refine ⟨fun _ => .or hlen fun p hp => ?_, fun hkey => absurd hkey (by decide : "$or" ≠ "$and")⟩
    obtain ⟨hp1, hp2⟩ := List.of_mem_zip hp
    exact ih p.1 hp1 (hu _ hp1) p.2 (hu' _ hp2) (zip_of_map_eq hmap p hp)
  case not =>
    intro inAny v _ ih hu v' hu' hsort
    exact ⟨fun _ => .not (ih hu v' hu' hsort), fun hkey => absurd hkey (by decide : "$not" ≠ "$and")⟩
  case path =>
    intro inAny key ops hpath _ _ ih hu v' hu' hsort
    obtain ⟨ops', rfl, hperm⟩ := object_of_sortKeys hsort
    rw [Json.unique_object] at hu hu'
    have hkey := clauseKey_of_isPath hpath
    refine ⟨fun _ => .path hkey (alikeOps_of_perm hu.1 hperm fun o ho v' hsort hv' => ?_), fun hand => ?_⟩
    · exact ih o ho (hu.2 _ ho) v' (hu'.2 _ hv') hsort
    · rw [clauseKey_and_iff.mpr hand] at hkey
      cases hkey
  case leaf =>
    intro name operand hoperand _ v' _ hsort
    refine .leaf (fun hany => ?_) hsort
    exact (isValueOperator_of_isOperand hoperand).2 ((congrArg opName hany).trans (by decide))
  case anyOperators =>
    intro ops hne hops ih hu v' hu' hsort
    obtain ⟨ops', rfl, hperm⟩ := object_of_sortKeys hsort
    rw [Json.unique_object] at hu hu'
    exact .anyOperators (isOperatorObject_of_isOperator hne hops)
      (alikeOps_of_perm hu.1 hperm fun o ho v' hsort hv' => ih o ho (hu.2 _ ho) v' (hu'.2 _ hv') hsort)
  case anyFilter =>
    intro map _ ih hu v' hu' hsort
    obtain ⟨map', rfl, hperm⟩ := object_of_sortKeys hsort
    exact .anyFilter (ih hu _ hu' hsort)

/-- The members of an object and the filters under an `$and` are taken one by one. -/
theorem hasClause_cons {m c : String × Value} {rest : List (String × Value)} :
    HasClause (.object (m :: rest)) c ↔ HasClause (.object [m]) c ∨ HasClause (.object rest) c := by
  constructor
  · rintro (⟨hc, hkey⟩ | ⟨hand, hi, h⟩)
    · rcases List.mem_cons.mp hc with rfl | hc
      · exact .inl (.own List.mem_cons_self hkey)
      · exact .inr (.own hc hkey)
    · rcases List.mem_cons.mp hand with rfl | hand
      · exact .inl (.and List.mem_cons_self hi h)
      · exact .inr (.and hand hi h)
  · rintro (h | h)
    · rcases h with ⟨hc, hkey⟩ | ⟨hand, hi, h⟩
      · exact .own (List.mem_cons.mpr (.inl (List.mem_singleton.mp hc))) hkey
      · exact .and (List.mem_cons.mpr (.inl (List.mem_singleton.mp hand))) hi h
    · rcases h with ⟨hc, hkey⟩ | ⟨hand, hi, h⟩
      · exact .own (List.mem_cons_of_mem _ hc) hkey
      · exact .and (List.mem_cons_of_mem _ hand) hi h

theorem hasClause_and {items : List Value} {c : String × Value} :
    HasClause (.object [("$and", .array items)]) c ↔ ∃ i ∈ items, HasClause i c := by
  constructor
  · rintro (⟨hc, hkey⟩ | ⟨hand, hi, h⟩)
    · rw [List.mem_singleton.mp hc] at hkey
      exact absurd rfl hkey
    · cases List.mem_singleton.mp hand
      exact ⟨_, hi, h⟩
  · rintro ⟨i, hi, h⟩
    exact .and List.mem_cons_self hi h

theorem hasClause_single {m c : String × Value} (hkey : m.1 ≠ "$and") : HasClause (.object [m]) c ↔ c = m := by
  constructor
  · rintro (⟨hc, _⟩ | ⟨hand, hi, h⟩)
    · exact List.mem_singleton.mp hc
    · rw [← List.mem_singleton.mp hand] at hkey
      exact absurd rfl hkey
  · rintro rfl
    exact .own List.mem_cons_self hkey

/-- Filters with the very same clauses are alike, wherever under `$and` these stand and how often. -/
theorem alike_of_hasClause {inAny : Bool} {a b : Value} (hfilter : IsFilter inAny a) (hu : a.Unique)
    (h : ∀ c, HasClause a c ↔ HasClause b c) : Alike a b := by
  have hrefl := alike_of_sortKeys hfilter hu hu rfl
  refine .of_forall (fun c hc => ?_) fun d hd => hrefl.back ((h d).mpr hd)
  obtain ⟨d, hd, hcd⟩ := hrefl.there hc
  exact ⟨d, (h d).mp hd, hcd⟩

end Iii.Filter

namespace Iii
open Filter

/-- **The normal form is canonical.** Filters that hold the same clauses have equal normal forms as JSON values,
whatever the order of their keys, the grouping under `$and` and the repetitions; and a value whose maps are iterated in
another order is accepted as it is and comes out the same. -/
theorem Filter.normalized_canonical {ft : FloatText} {a : Value} {limit : SizeLimit} {f : Filter} (ha : a.Unique)
    (hf : Filter.fromParsed <$> Parsed.parse ft a limit = .ok f) :
    (∀ (b : Value) (limit' : SizeLimit) (g : Filter), b.Unique →
      Filter.fromParsed <$> Parsed.parse ft b limit' = .ok g → Alike a b →
        sortKeys f.normalized = sortKeys g.normalized) ∧
    ∀ b : Value, b.Unique → sortKeys a = sortKeys b →
      ∃ g, Filter.fromParsed <$> Parsed.parse ft b limit = .ok g ∧ sortKeys f.normalized = sortKeys g.normalized := by
  have hof := Filter.of_parsed ft hf
  have hsame : ∀ (b : Value) (limit' : SizeLimit) (g : Filter), b.Unique →
      Filter.fromParsed <$> Parsed.parse ft b limit' = .ok g → Alike a b →
        sortKeys f.normalized = sortKeys g.normalized := by
    intro b limit' g hb hg halike
    rw [hof.normalized, (Filter.of_parsed ft hg).normalized]
    exact normal_of_alike ft halike ha hb
  refine ⟨hsame, fun b hb hsort => ?_⟩
  obtain ⟨g, hg⟩ := parsed_of_sortKeys ft hsort hf
  have hfilter := (filterOk_iff maxDepth false a).mp hof.admissible.valid
  exact ⟨g, hg, hsame b limit g hb hg (alike_of_sortKeys hfilter.1 ha hb hsort)⟩

/-- `tagsFilter` with each clause once, both under one `$and` in another order. -/
def tagsGrouped : Value := .object [("$and", .array
  [.object [("$and", .array [.object [("input.n", tagsBound)]])],
   .object [("input.tags", .object [("$any", .object [("$prefix", .string "a")])])]])]

theorem Filter.normalized_canonical_tags : ∃ f g, Filter.parse .exact tagsFilter = .ok f ∧
    Filter.parse .exact tagsGrouped = .ok g ∧ sortKeys f.normalized = sortKeys g.normalized := by
  obtain ⟨f, hf⟩ := tagsFilter_parses
  obtain ⟨g, hg⟩ := Except.ok_isOk.mp (show (Filter.parse .exact tagsGrouped).isOk = true by rfl)
  have hgrouped : tagsGrouped.Unique := by
    simp [tagsGrouped, tagsBound, Json.Unique, Json.UniqueItems, Json.UniqueMembers]
  have hfilter := (filterOk_iff maxDepth false tagsFilter).mp (Filter.of_parse .exact hf).admissible.valid
  have halike : Alike tagsFilter tagsGrouped := by
    refine alike_of_hasClause hfilter.1 tagsFilter_unique fun c => ?_
    have hn : ∀ v, HasClause (.object [("input.n", v)]) c ↔ c = ("input.n", v) := fun v =>
      hasClause_single (by decide : "input.n" ≠ "$and")
    have htags : ∀ v, HasClause (.object [("input.tags", v)]) c ↔ c = ("input.tags", v) := fun v =>
      hasClause_single (by decide : "input.tags" ≠ "$and")
    rw [tagsFilter, tagsGrouped, hasClause_cons]
    simp only [hasClause_and, hn, htags, List.mem_cons, List.not_mem_nil, or_false, exists_eq_left, exists_eq_or_imp]
    rw [or_self, or_comm]
  have hcanonical := @Filter.normalized_canonical .exact tagsFilter .enforce f tagsFilter_unique hf
  exact ⟨f, g, hf, hg, hcanonical.1 tagsGrouped .enforce g hgrouped hg halike⟩

end Iii
