import Iii.Schema.Check

/-! Which path a schema check fails for.

A path inside `$any` is not a path of the document alone: it starts at the elements of an array that another path leads
to. `Chain` is such a path written out, one list of segments for each array on the way, and `Node.chains` lists those
of a filter. The checker refuses a filter because of one of its chains: the one whose segments, followed through the
schemas on their own, reach what the error names (`exists_rejected`). -/
namespace Iii.Schema
open Filter

/-- A path from a root, through an element of the array that each list of segments but the last one leads to. -/
structure Chain where
  root : Root
  paths : List (List Segment)

/-- The chain that goes on inside an element. -/
def Chain.into (ch : Chain) (segments : List Segment) : Chain := ⟨ch.root, ch.paths ++ [segments]⟩

/-- The chain of a path clause; `element` leads to the array that `@` is an element of. Other roots have no format. -/
def chainOf (element : Option Chain) (p : Path) : Option Chain :=
  match p.root with
  | .input | .output => some ⟨p.root, [p.segments]⟩
  | .element => element.map (·.into p.segments)
  | .error | .caller | .metadata => none

mutual
/-- The paths of a filter that have a format. -/
def Node.chains (element : Option Chain) : Node → List Chain
  | .and nodes => Node.chainsOf element nodes
  | .or nodes => Node.chainsOf element nodes
  | .not node => Node.chains element node
  | .path p ops =>
    match chainOf element p with
    | none => []
    | some ch => ch :: Op.chainsOf ch ops
def Node.chainsOf (element : Option Chain) : List Node → List Chain
  | [] => []
  | node :: rest => Node.chains element node ++ Node.chainsOf element rest
def Op.chainsOf (ch : Chain) : List Op → List Chain
  | [] => []
  | op :: rest => Op.chains ch op ++ Op.chainsOf ch rest
def Op.chains (ch : Chain) : Op → List Chain
  | .any operand => AnyOperand.chains ch operand
  | _ => []
/-- An operator object under `$any` is about the elements themselves. -/
def AnyOperand.chains (ch : Chain) : AnyOperand → List Chain
  | .ops ops => Op.chainsOf (ch.into []) ops
  | .filter node => Node.chains (some ch) node
end

section Check
variable (ft : FloatText)

/-- The position of the elements of the array at `here`. -/
def elementOf (here : At) : At :=
  { here with schema := here.schema.bind fun s => (itemsOf ft here.document s).toOption, display := here.display ++ "[*]" }

/-- Where a walk ends, the warnings aside. -/
def follow (here : At) (segments : List Segment) : Except FilterError At := Prod.fst <$> walk ft here segments []

/-- The error of a chain, when the walk along its last list of segments is refused. -/
def rejects : (here : At) → List (List Segment) → Option FilterError
  | _, [] => none
  | here, segments :: rest =>
    match follow ft here segments, rest with
    | .error e, [] => some e
    | .ok _, [] => none
    | .error _, _ :: _ => none
    | .ok there, _ :: _ => rejects (elementOf ft there) rest

def Checker.rejects (c : Checker) (ch : Chain) : Option FilterError :=
  (c.start none ch.root).bind fun here => Schema.rejects ft here ch.paths

/-- The chain leads to the position, from where the rest of a longer chain is decided. -/
def Leads (c : Checker) (ch : Chain) (here : At) : Prop :=
  ∀ rest, rest ≠ [] → c.rejects ft ⟨ch.root, ch.paths ++ rest⟩ = rejects ft here rest

/-- The array that `@` is an element of, as a position and as a chain. -/
inductive Enters (c : Checker) : Option At → Option Chain → Prop
  | top : Enters c none none
  | element {here : At} {ch : Chain} (h : Leads ft c ch { here with display := here.display ++ "[*]" }) :
      Enters c (some here) (some ch)

variable {ft}

variable {segments : List Segment} {here : At}

theorem follow_of_walk_error {warnings : List String} {e : FilterError}
    (h : walk ft here segments warnings = .error e) : follow ft here segments = .error e := by
  unfold walk at h
  unfold follow walk
  cases hw : walkFrom ft here.document here.format segments here.display here.schema none with
  | error e' =>
    rw [hw] at h
    cases h
    rfl
  | ok r =>
    rw [hw] at h
    cases h

theorem follow_of_walk_ok {there : At} {warnings warnings' : List String}
    (h : walk ft here segments warnings = .ok (there, warnings')) : follow ft here segments = .ok there := by
  unfold walk at h
  unfold follow walk
  cases hw : walkFrom ft here.document here.format segments here.display here.schema none with
  | error e =>
    rw [hw] at h
    cases h
  | ok r =>
    rw [hw] at h
    cases h
    rfl

theorem rejects_last {e : FilterError} (h : follow ft here segments = .error e) :
    rejects ft here [segments] = some e := by
  rw [rejects.eq_def]
  simp only [h]

theorem not_rejects_last {there : At} (h : follow ft here segments = .ok there) :
    rejects ft here [segments] = none := by
  rw [rejects.eq_def]
  simp only [h]

theorem rejects_more {there : At} {next : List Segment} {rest : List (List Segment)}
    (h : follow ft here segments = .ok there) :
    rejects ft here (segments :: next :: rest) = rejects ft (elementOf ft there) (next :: rest) := by
  rw [rejects.eq_def]
  simp only [h]

theorem follow_nil (here : At) : follow ft here [] = .ok here := rfl

theorem Leads.start {c : Checker} {root : Root} {here : At} (h : c.start none root = some here) :
    Leads ft c ⟨root, []⟩ here := by
  intro rest _
  show (c.start none root).bind _ = _
  rw [h]
  rfl

theorem Leads.rejects {c : Checker} {ch : Chain} (h : Leads ft c ch here) {e : FilterError}
    (hfollow : follow ft here segments = .error e) : c.rejects ft (ch.into segments) = some e := by
  exact (h [segments] (List.cons_ne_nil _ _)).trans (rejects_last hfollow)

theorem Leads.into {c : Checker} {ch : Chain} {there : At} (h : Leads ft c ch here)
    (hfollow : follow ft here segments = .ok there) : Leads ft c (ch.into segments) (elementOf ft there) := by
  intro rest hrest
  cases rest with
  | nil => exact absurd rfl hrest
  | cons next rest =>
    show c.rejects ft ⟨ch.root, ch.paths ++ [segments] ++ next :: rest⟩ = _
    rw [List.append_assoc]
    exact (h (segments :: next :: rest) (List.cons_ne_nil _ _)).trans (rejects_more hfollow)

/-- A path that has a format starts where its chain starts. -/
theorem chain_of_start {c : Checker} {element : Option At} {ch : Option Chain} (h : Enters ft c element ch)
    {p : Path} {start : At} (hstart : c.start element p.root = some start) :
    ∃ before : Chain, chainOf ch p = some (before.into p.segments) ∧ Leads ft c before start := by
  unfold chainOf
  cases hroot : p.root with
  | input =>
    rw [hroot] at hstart
    exact ⟨⟨.input, []⟩, rfl, Leads.start hstart⟩
  | output =>
    rw [hroot] at hstart
    exact ⟨⟨.output, []⟩, rfl, Leads.start hstart⟩
  | element =>
    rw [hroot] at hstart
    cases h with
    | top => cases hstart
    | element h =>
      cases hstart
      exact ⟨_, rfl, h⟩
  | _ =>
    rw [hroot] at hstart
    cases hstart

theorem bind_error {ε α β : Type} {x : Except ε α} {f : α → Except ε β} {e : ε} (h : x >>= f = .error e) :
    x = .error e ∨ ∃ a, x = .ok a ∧ f a = .error e := by
  cases x with
  | error e' =>
    cases h
    exact .inl rfl
  | ok a => exact .inr ⟨a, rfl, h⟩

mutual
variable {e : FilterError} {c : Checker}

/-- A check that fails fails for one of the chains. -/
theorem node_error : ∀ (node : Node) {element : Option At} {ch : Option Chain}
    {warnings : List String}, Enters ft c element ch → c.node ft element node warnings = .error e →
      ∃ ch' ∈ Node.chains ch node, c.rejects ft ch' = some e
  | .and nodes, _, _, _, henter, h => nodes_error nodes henter h
  | .or nodes, _, _, _, henter, h => nodes_error nodes henter h
  | .not node, _, _, _, henter, h => node_error node henter h
  | .path p ops, element, ch, warnings, henter, h => by
    rw [Checker.node] at h
    cases hstart : c.start element p.root with
    | none =>
      rw [hstart] at h
      cases h
    | some start =>
      rw [hstart] at h
      obtain ⟨before, hchain, hleads⟩ := chain_of_start henter hstart
      rw [Node.chains, hchain]
      rcases bind_error h with hwalk | ⟨⟨here, warnings'⟩, hwalk, hops⟩
      · exact ⟨_, List.mem_cons_self, hleads.rejects (follow_of_walk_error hwalk)⟩
      · obtain ⟨ch', hmem, hrejects⟩ := ops_error ops (hleads.into (follow_of_walk_ok hwalk)) hops
        exact ⟨ch', List.mem_cons_of_mem _ hmem, hrejects⟩
theorem nodes_error : ∀ (nodes : List Node) {element : Option At} {ch : Option Chain}
    {warnings : List String}, Enters ft c element ch → c.nodes ft element nodes warnings = .error e →
      ∃ ch' ∈ Node.chainsOf ch nodes, c.rejects ft ch' = some e
  | [], _, _, _, _, h => by cases h
  | node :: rest, element, ch, warnings, henter, h => by
    rw [Checker.nodes] at h
    rw [Node.chainsOf]
    rcases bind_error h with hnode | ⟨warnings', -, hrest⟩
    · obtain ⟨ch', hmem, hrejects⟩ := node_error node henter hnode
      exact ⟨ch', List.mem_append_left _ hmem, hrejects⟩
    · obtain ⟨ch', hmem, hrejects⟩ := nodes_error rest henter hrest
      exact ⟨ch', List.mem_append_right _ hmem, hrejects⟩
theorem ops_error : ∀ (ops : List Op) {here : At} {ch : Chain} {warnings : List String},
    Leads ft c ch (elementOf ft here) → c.ops ft here ops warnings = .error e →
      ∃ ch' ∈ Op.chainsOf ch ops, c.rejects ft ch' = some e
  | [], _, _, _, _, h => by cases h
  | op :: rest, here, ch, warnings, hleads, h => by
    rw [Checker.ops] at h
    rw [Op.chainsOf]
    rcases bind_error h with hop | ⟨warnings', -, hrest⟩
    · obtain ⟨ch', hmem, hrejects⟩ := op_error op hleads hop
      exact ⟨ch', List.mem_append_left _ hmem, hrejects⟩
    · obtain ⟨ch', hmem, hrejects⟩ := ops_error rest hleads hrest
      exact ⟨ch', List.mem_append_right _ hmem, hrejects⟩
theorem op_error : ∀ (op : Op) {here : At} {ch : Chain} {warnings : List String},
    Leads ft c ch (elementOf ft here) → c.op ft here op warnings = .error e →
      ∃ ch' ∈ Op.chains ch op, c.rejects ft ch' = some e
  | .any operand, here, ch, warnings, hleads, h => by
    rw [Checker.op] at h
    rw [Op.chains]
    cases hschema : here.schema with
    | none =>
      rw [hschema] at h
      cases h
    | some schema =>
      rw [hschema] at h
      dsimp only at h
      unfold elementOf at hleads
      rw [hschema, Option.bind_some] at hleads
      cases hitems : itemsOf ft here.document schema with
      | ok items =>
        rw [hitems] at h hleads
        exact operand_error operand hleads h
      | error reason =>
        rw [hitems] at h hleads
        exact operand_error operand hleads h
  | .eq _, _, _, _, _, h => by cases h
  | .ne _, _, _, _, _, h => by cases h
  | .inSet _, _, _, _, _, h => by cases h
  | .nin _, _, _, _, _, h => by cases h
  | .gt _, _, _, _, _, h => by cases h
  | .gte _, _, _, _, _, h => by cases h
  | .lt _, _, _, _, _, h => by cases h
  | .lte _, _, _, _, _, h => by cases h
  | .existsIs _, _, _, _, _, h => by cases h
  | .hasPrefix _, _, _, _, _, h => by cases h
theorem operand_error : ∀ (operand : AnyOperand) {element : At} {ch : Chain}
    {warnings : List String}, Leads ft c ch { element with display := element.display ++ "[*]" } →
      c.operand ft element operand warnings = .error e → ∃ ch' ∈ AnyOperand.chains ch operand, c.rejects ft ch' = some e
  | .ops ops, _, _, _, hleads, h => ops_error ops (hleads.into (follow_nil _)) h
  | .filter node, _, _, _, hleads, h => node_error node (.element hleads) h
end

end Check

end Iii.Schema
