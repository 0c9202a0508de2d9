import Iii.Sdk.Compile

/-! Closures and relations.

The compiler never looks inside a document, an element or a view: it hands them to the
host. So a relation that the host's operations keep (`Related`) is kept by every closure
the compiler returns, and two related documents get one answer from every filter
(`compileClauses_respect`). The parsers are built depth by depth, and so is the proof:
`Yields` says what a parser can return, whatever state it starts in, and
`level_respects` is the induction on the depths left. -/
namespace Iii.Sdk
open Filter

/-! ### What a parser can return -/

section Yields
variable {ε σ α β : Type}

/-- Whatever `p` returns satisfies `Q`. -/
def Yields (Q : α → Prop) (p : StateT σ (Except ε) α) : Prop :=
  ∀ s a t, p.run s = .ok (a, t) → Q a

variable {Q : α → Prop}

theorem Yields.pure {a : α} (h : Q a) :
    Yields Q (Pure.pure a : StateT σ (Except ε) α) := by
  intro s b t hrun
  cases hrun
  exact h

theorem Yields.bind {P : α → Prop} {Q : β → Prop} {p : StateT σ (Except ε) α}
    {f : α → StateT σ (Except ε) β} (hp : Yields P p) (hf : ∀ a, P a → Yields Q (f a)) :
    Yields Q (p >>= f) := by
  intro s b t hrun
  rw [StateT.run_bind] at hrun
  cases hfirst : p.run s with
  | error e =>
    rw [hfirst] at hrun
    cases hrun
  | ok r =>
    rw [hfirst] at hrun
    exact hf r.1 (hp s r.1 r.2 hfirst) r.2 b t hrun

/-- What the first part returns does not matter. -/
theorem Yields.after {Q : β → Prop} {p : StateT σ (Except ε) α} {f : α → StateT σ (Except ε) β}
    (hf : ∀ a, Yields Q (f a)) : Yields Q (p >>= f) :=
  Yields.bind (P := fun _ => True) (fun _ _ _ _ => trivial) fun a _ => hf a

theorem Yields.refuse {e : ε} : Yields Q (throw e : StateT σ (Except ε) α) := by
  intro s a t hrun
  cases hrun

theorem Yields.lift {x : Except ε α} (h : ∀ a, x = .ok a → Q a) :
    Yields Q (liftM x : StateT σ (Except ε) α) := by
  intro s a t hrun
  cases x with
  | error e => cases hrun
  | ok b =>
    cases hrun
    exact h _ rfl

theorem Yields.mapM {γ : Type} {f : γ → StateT σ (Except ε) α} (l : List γ) (hf : ∀ m ∈ l, Yields Q (f m)) :
    Yields (fun out => ∀ a ∈ out, Q a) (l.mapM f) := by
  induction l with
  | nil =>
    rw [List.mapM_nil]
    exact Yields.pure fun a ha => by cases ha
  | cons m rest ih =>
    rw [List.mapM_cons]
    refine Yields.bind (hf m (List.mem_cons_self ..)) fun a ha => ?_
    refine Yields.bind (ih fun m hm => hf m (List.mem_cons_of_mem _ hm)) fun out hout => ?_
    exact Yields.pure (List.forall_mem_cons.mpr ⟨ha, hout⟩)

end Yields

/-! ### Related values -/

variable {ν Doc El View : Type}

/-- A relation on documents, one on elements and one on views that every operation of the
host keeps. -/
structure Related (H : Host ν Doc El View) (RD : Doc → Doc → Prop) (RE : El → El → Prop)
    (RV : View → View → Prop) : Prop where
  resolve : ∀ p {d d' el el'}, RD d d' → RE el el' → RV (H.resolve p d el) (H.resolve p d' el')
  items : ∀ {w w'}, RV w w' → Option.Rel (List.Forall₂ RE) (H.items w) (H.items w')
  view : ∀ {el el'}, RE el el' → RV (H.view el) (H.view el')
  leaf : ∀ {path name operand op}, H.parseLeaf path name operand = .ok op →
    ∀ {w w' d d'}, RV w w' → RD d d' → op w d = op w' d'

section Respects
variable (RD : Doc → Doc → Prop) (RE : El → El → Prop) (RV : View → View → Prop)

def PredRespects (c : Pred Doc El) : Prop := ∀ d d' el el', RD d d' → RE el el' → c d el = c d' el'

def OpRespects (op : OpFn Doc View) : Prop := ∀ w w' d d', RV w w' → RD d d' → op w d = op w' d'

/-- Every closure of a level keeps the relation. -/
structure LevelRespects (next : Level ν Doc El View) : Prop where
  collect : ∀ src inAny, Yields (fun cs => ∀ c ∈ cs, PredRespects RD RE c) (next.collect src inAny)
  operators : ∀ path obj, Yields (fun ops => ∀ op ∈ ops, OpRespects RD RV op)
    (next.parseOperators path obj)

variable {RD RE RV}

theorem all_respect {α : Type} {f g : α → Bool} {l : List α} (h : ∀ a ∈ l, f a = g a) :
    l.all f = l.all g := by
  induction l with
  | nil => rfl
  | cons a rest ih =>
    rw [List.forall_mem_cons] at h
    rw [List.all_cons, List.all_cons, h.1, ih h.2]

theorem any_respect {α : Type} {f g : α → Bool} {l : List α} (h : ∀ a ∈ l, f a = g a) :
    l.any f = l.any g := by
  induction l with
  | nil => rfl
  | cons a rest ih =>
    rw [List.forall_mem_cons] at h
    rw [List.any_cons, List.any_cons, h.1, ih h.2]

theorem any_related {α : Type} {R : α → α → Prop} {f g : α → Bool} {l l' : List α}
    (hl : List.Forall₂ R l l') (h : ∀ a b, R a b → f a = g b) : l.any f = l'.any g := by
  induction hl with
  | nil => rfl
  | cons hab _ ih => rw [List.any_cons, List.any_cons, h _ _ hab, ih]

theorem andPred_respects {clauses : List (Pred Doc El)} (h : ∀ c ∈ clauses, PredRespects RD RE c) :
    PredRespects RD RE (andPred clauses) := by
  intro d d' el el' hd he
  rw [andPred_eq, andPred_eq]
  exact all_respect fun c hc => h c hc d d' el el' hd he

theorem orPred_respects {children : List (Pred Doc El)} (h : ∀ c ∈ children, PredRespects RD RE c) :
    PredRespects RD RE (orPred children) := by
  intro d d' el el' hd he
  exact any_respect fun c hc => h c hc d d' el el' hd he

/-! ### The parsers of one depth -/

section Parsers
variable {H : Host ν Doc El View} {next : Level ν Doc El View}
variable (hH : Related H RD RE RV) (hnext : LevelRespects RD RE RV next)

include hH in
theorem pathClause_respects (path : Path) {ops : List (OpFn Doc View)}
    (h : ∀ op ∈ ops, OpRespects RD RV op) : PredRespects RD RE (pathClause H path ops) := by
  intro d d' el el' hd he
  rw [pathClause_eq, pathClause_eq]
  exact all_respect fun op hop => h op hop _ _ d d' (hH.resolve path hd he) hd

include hH in
/-- `$any` asks the same of related elements. -/
theorem any_respects {test : Doc → El → Bool}
    (h : ∀ d d' el el', RD d d' → RE el el' → test d el = test d' el') :
    OpRespects RD RV fun w d =>
      match H.items w with
      | some els => els.any (test d)
      | none => false := by
  intro w w' d d' hw hd
  have hitems := hH.items hw
  show (match H.items w with
    | some els => els.any (test d)
    | none => false) = match H.items w' with
    | some els => els.any (test d')
    | none => false
  generalize H.items w = first, H.items w' = second at hitems
  cases hitems with
  | none => rfl
  | some hels => exact any_related hels fun el el' he => h d d' el el' hd he

include hnext in
theorem parseFilter_yields (src : Json Units ν) (inAny : Bool) :
    Yields (PredRespects RD RE) (parseFilter next src inAny) :=
  Yields.bind (hnext.collect src inAny) fun _ h => Yields.pure (andPred_respects h)

include hH hnext in
theorem parseAny_yields (path : Units) (operand : Json Units ν) :
    Yields (OpRespects RD RV) (parseAny H next path operand) := by
  unfold parseAny
  split
  · split
    · refine Yields.bind (hnext.operators path _) fun ops hops => Yields.pure ?_
      refine any_respects hH fun d d' el el' hd he => ?_
      exact all_respect fun op hop => hops op hop _ _ d d' (hH.view he) hd
    · refine Yields.after fun saved => Yields.bind (parseFilter_yields hnext _ true) fun node hnode => ?_
      exact Yields.after fun _ => Yields.pure (any_respects hH hnode)
  · exact Yields.refuse

include hH hnext in
theorem parseOperator_yields (path name : Units) (operand : Json Units ν) :
    Yields (OpRespects RD RV) (parseOperator H next path name operand) := by
  unfold parseOperator
  split
  · exact parseAny_yields hH hnext path operand
  · exact Yields.lift fun op hop w w' d d' hw hd => hH.leaf hop hw hd

include hH hnext in
theorem parseOperators_yields (path : Units) (obj : List (Units × Json Units ν)) :
    Yields (fun ops => ∀ op ∈ ops, OpRespects RD RV op) (parseOperators H next path obj) :=
  Yields.mapM _ fun m _ => Yields.after fun _ => parseOperator_yields hH hnext path m.1 m.2

include hH hnext in
theorem parseClause_yields (inAny : Bool) (key : Units) (value : Json Units ν) :
    Yields (PredRespects RD RE) (parseClause H next inAny key value) := by
  unfold parseClause
  split
  case h_1 => exact Yields.refuse
  case h_2 =>
    refine Yields.after fun _ => Yields.after fun items => ?_
    refine Yields.bind (Yields.mapM items fun item _ => parseFilter_yields hnext item inAny) fun cs hcs => ?_
    exact Yields.pure (orPred_respects hcs)
  case h_3 =>
    refine Yields.after fun _ => ?_
    split
    · refine Yields.bind (parseFilter_yields hnext _ inAny) fun child hchild => Yields.pure ?_
      intro d d' el el' hd he
      exact congrArg Bool.not (hchild d d' el el' hd he)
    · exact Yields.refuse
  case h_4 => exact Yields.refuse
  case h_5 => exact Yields.refuse
  case h_6 =>
    refine Yields.after fun path => Yields.after fun _ => Yields.after fun obj => ?_
    refine Yields.bind (parseOperators_yields hH hnext key obj) fun ops hops => ?_
    exact Yields.pure (pathClause_respects hH path hops)

include hH hnext in
theorem collectEntries_yields (inAny : Bool) (entries : List (Units × Json Units ν))
    (pending : List (Json Units ν)) (out : List (Pred Doc El)) (hout : ∀ c ∈ out, PredRespects RD RE c) :
    Yields (fun r => ∀ c ∈ r.2, PredRespects RD RE c)
      (collectEntries H next inAny entries pending out) := by
  induction entries generalizing pending out with
  | nil => exact Yields.pure hout
  | cons m rest ih =>
    obtain ⟨key, value⟩ := m
    rw [collectEntries]
    split
    · exact Yields.after fun items => ih _ out hout
    · refine Yields.bind (parseClause_yields hH hnext inAny key value) fun c hc => ih pending _ ?_
      intro c' hc'
      rcases List.mem_append.mp hc' with hc' | hc'
      · exact hout c' hc'
      · rw [List.mem_singleton.mp hc']
        exact hc

include hH hnext in
theorem collectClauses_yields (inAny : Bool) (passes : Nat) (pending : List (Json Units ν))
    (out : List (Pred Doc El)) (hout : ∀ c ∈ out, PredRespects RD RE c) :
    Yields (fun cs => ∀ c ∈ cs, PredRespects RD RE c)
      (collectClauses H next inAny passes pending out) := by
  induction passes generalizing pending out with
  | zero =>
    cases pending with
    | nil => exact Yields.pure hout
    | cons src pending => exact Yields.refuse
  | succ passes ih =>
    cases pending with
    | nil => exact Yields.pure hout
    | cons src pending =>
      cases src with
      | object obj =>
        refine Yields.bind (collectEntries_yields hH hnext inAny _ pending out hout) fun r hr => ?_
        exact ih r.1 r.2 hr
      | _ => exact Yields.refuse

end Parsers

/-! ### The compiler -/

variable {H : Host ν Doc El View}

theorem level_respects (hH : Related H RD RE RV) (n : Nat) : LevelRespects RD RE RV (level H n) := by
  induction n with
  | zero => exact ⟨fun _ _ => Yields.refuse, fun _ _ => Yields.refuse⟩
  | succ n ih =>
    refine ⟨fun src inAny => ?_, fun path obj => parseOperators_yields hH ih path obj⟩
    exact collectClauses_yields hH ih inAny _ _ [] fun c hc => by cases hc

/-- **Related documents get one answer from every filter.** -/
theorem compileClauses_respect (hH : Related H RD RE RV) {src : Json Units ν}
    {clauses : List (Pred Doc El)} {roots : Roots}
    (h : compileClauses H src = .ok (clauses, roots)) : ∀ c ∈ clauses, PredRespects RD RE c := by
  unfold compileClauses at h
  cases hrun : ((level H maxDepth).collect src false).run {} with
  | error e =>
    rw [hrun] at h
    cases h
  | ok r =>
    rw [hrun] at h
    cases h
    exact (level_respects hH maxDepth).collect src false {} r.1 r.2 hrun

end Respects

end Iii.Sdk
