import Iii.Lib.Split
import Mathlib.Data.Finset.Basic

/-! The services of a namespace (`services.rs`).

A service holds the functions whose ids start with its name, and goes with the last of them. What it holds is what was
registered and not removed since, as long as no worker registers a service by the name of one that holds functions:
it is replaced by one that holds none (`service_replaced`). -/
namespace Iii.Services
open Lib

structure Service where
  id : String
  name : String
  parentServiceId : Option String
  functions : Finset String

def Service.withParent (name id : String) (parentServiceId : Option String) : Service := ⟨id, name, parentServiceId, ∅⟩

def Service.new (name id : String) : Service := .withParent name id none

def Service.insertFunction (service : Service) (function : String) : Service :=
  if function = "" then service else { service with functions := insert function service.functions }

def Service.removeFunctionFromService (service : Service) (function : String) : Service :=
  { service with functions := service.functions.erase function }

/-- Keyed by namespace and name. -/
abbrev ServicesRegistry : Type := String × String → Option Service

/-- `function_id.split("::")`. -/
def parts (functionId : String) : List (List Char) := splitPairs ':' ':' functionId.toList

def getServiceNameFromFunctionId (functionId : String) : Option String :=
  match parts functionId with
  | service :: _ :: _ => some (String.ofList service)
  | _ => none

def getFunctionNameFromFunctionId (functionId : String) : Option String :=
  match parts functionId with
  | _ :: function :: rest => some (String.ofList ([':', ':'].intercalate (function :: rest)))
  | _ => none

namespace ServicesRegistry

def insertService (registry : ServicesRegistry) (ns : String) (service : Service) : ServicesRegistry :=
  Function.update registry (ns, service.name) (some service)

def insertFunctionToService (registry : ServicesRegistry) (ns serviceName function : String) : ServicesRegistry :=
  match registry (ns, serviceName) with
  | some service => Function.update registry (ns, serviceName) (some (service.insertFunction function))
  | none => registry

def registerServiceFromFunctionId (registry : ServicesRegistry) (ns functionId : String) : ServicesRegistry :=
  match getServiceNameFromFunctionId functionId, getFunctionNameFromFunctionId functionId with
  | some serviceName, some functionName =>
    let registry :=
      if (registry (ns, serviceName)).isSome then registry else registry.insertService ns (.new serviceName "")
    registry.insertFunctionToService ns serviceName functionName
  | _, _ => registry

def removeFunctionFromServices (registry : ServicesRegistry) (ns functionId : String) : ServicesRegistry :=
  match getServiceNameFromFunctionId functionId, getFunctionNameFromFunctionId functionId with
  | some serviceName, some functionName =>
    match registry (ns, serviceName) with
    | some service =>
      let service := service.removeFunctionFromService functionName
      if service.functions = ∅ then Function.update registry (ns, serviceName) none
      else Function.update registry (ns, serviceName) (some service)
    | none => registry
  | _, _ => registry

/-- The functions of a service, none if there is no such service. -/
def functions (registry : ServicesRegistry) (ns name : String) : Finset String :=
  match registry (ns, name) with
  | some service => service.functions
  | none => ∅

end ServicesRegistry

inductive Call where
  | registerFunction (ns functionId : String)
  | removeFunction (ns functionId : String)
  /-- `RegisterService` of a worker in the namespace. -/
  | registerService (ns id name : String) (parentServiceId : Option String)

def Call.ns : Call → String
  | registerFunction ns _ | removeFunction ns _ | registerService ns _ _ _ => ns

def ServicesRegistry.call (registry : ServicesRegistry) : Call → ServicesRegistry
  | .registerFunction ns functionId => registry.registerServiceFromFunctionId ns functionId
  | .removeFunction ns functionId => registry.removeFunctionFromServices ns functionId
  | .registerService ns id name parentServiceId =>
    registry.insertService ns (.withParent (if name = "" then id else name) id parentServiceId)

/-- The calls so far, the last one first. -/
def after : List Call → ServicesRegistry
  | [] => fun _ => none
  | c :: past => (after past).call c

/-! ### What is owed -/

/-- The id is the function's name behind the service's: it is cut at the first `::`. -/
def IsFunctionOf (functionId serviceName function : String) : Prop :=
  splitPair ':' ':' functionId.toList = some (serviceName.toList, function.toList)

/-- The function was registered and not removed since. -/
def Registered (ns serviceName function : String) : List Call → Prop
  | [] => False
  | .registerFunction ns' functionId :: past =>
    ns' = ns ∧ IsFunctionOf functionId serviceName function ∨ Registered ns serviceName function past
  | .removeFunction ns' functionId :: past =>
    ¬ (ns' = ns ∧ IsFunctionOf functionId serviceName function) ∧ Registered ns serviceName function past
  | .registerService .. :: past => Registered ns serviceName function past

structure Mirrors (past : List Call) : Prop where
  functions : ∀ ns serviceName function, function ∈ (after past).functions ns serviceName ↔
    function ≠ "" ∧ Registered ns serviceName function past
  stands : ∀ ns serviceName function, function ≠ "" → Registered ns serviceName function past →
    (after past (ns, serviceName)).isSome
  apart : ∀ c ns serviceName, c.ns ≠ ns → after (c :: past) (ns, serviceName) = after past (ns, serviceName)

/-- No worker registers a service by the name of one that holds functions. -/
def NoneReplaced : List Call → Prop
  | [] => True
  | .registerService ns id name _ :: past =>
    (after past).functions ns (if name = "" then id else name) = ∅ ∧ NoneReplaced past
  | _ :: past => NoneReplaced past

/-! ### Names -/

/-- The names that are read from an id are what stands before the first `::` and after it. -/
theorem names_eq (functionId : String) :
    (getServiceNameFromFunctionId functionId = none ∧ getFunctionNameFromFunctionId functionId = none ∧
      ∀ serviceName function, ¬ IsFunctionOf functionId serviceName function) ∨
    ∃ serviceName function, getServiceNameFromFunctionId functionId = some serviceName ∧
      getFunctionNameFromFunctionId functionId = some function ∧ IsFunctionOf functionId serviceName function := by
  unfold getServiceNameFromFunctionId getFunctionNameFromFunctionId parts IsFunctionOf
  rw [splitPairs_eq]
  cases hcut : splitPair ':' ':' functionId.toList with
  | none => exact .inl ⟨rfl, rfl, nofun⟩
  | some cut =>
    obtain ⟨before, rest⟩ := cut
    right
    obtain ⟨part, parts, hparts⟩ := List.exists_cons_of_ne_nil (splitPairs_ne_nil ':' ':' rest)
    have hrest := intercalate_splitPairs ':' ':' rest
    refine ⟨String.ofList before, String.ofList rest, ?_, ?_, ?_⟩
    · simp only [hparts]
    · simp only [hparts]
      rw [← hparts, hrest]
    · rw [String.toList_ofList, String.toList_ofList]

theorem IsFunctionOf.unique {functionId serviceName serviceName' function function' : String}
    (h : IsFunctionOf functionId serviceName function) (h' : IsFunctionOf functionId serviceName' function') :
    serviceName = serviceName' ∧ function = function' := by
  have heq := Option.some_inj.mp (h.symm.trans h')
  exact ⟨String.toList_injective (Prod.ext_iff.mp heq).1, String.toList_injective (Prod.ext_iff.mp heq).2⟩

theorem IsFunctionOf.iff {functionId serviceName serviceName' function function' : String}
    (h : IsFunctionOf functionId serviceName function) :
    IsFunctionOf functionId serviceName' function' ↔ serviceName' = serviceName ∧ function' = function := by
  constructor
  · exact fun h' => h'.unique h
  · rintro ⟨rfl, rfl⟩
    exact h

/-! ### Single calls -/

section
variable {registry : ServicesRegistry} {ns ns' serviceName name functionId function f : String}

theorem functions_update (service : Option Service) :
    ServicesRegistry.functions (Function.update registry (ns, name) service) ns' serviceName =
      if ns' = ns ∧ serviceName = name then (service.map Service.functions).getD ∅
      else registry.functions ns' serviceName := by
  unfold ServicesRegistry.functions
  by_cases h : ns' = ns ∧ serviceName = name
  · obtain ⟨rfl, rfl⟩ := h
    rw [if_pos ⟨rfl, rfl⟩, Function.update_self]
    cases service <;> rfl
  · rw [if_neg h, Function.update_of_ne]
    intro heq
    exact h (Prod.ext_iff.mp heq)

/-- A service that a worker registers holds no function. -/
theorem functions_withParent (id : String) (parentServiceId : Option String) :
    (registry.insertService ns (.withParent name id parentServiceId)).functions ns' serviceName =
      if ns' = ns ∧ serviceName = name then ∅ else registry.functions ns' serviceName :=
  functions_update _

theorem isSome_of_mem (h : f ∈ registry.functions ns serviceName) : (registry (ns, serviceName)).isSome := by
  unfold ServicesRegistry.functions at h
  split at h
  · rename_i hservice
    rw [hservice]
    rfl
  · exact absurd h (Finset.notMem_empty f)

theorem mem_insertFunction {service : Service} :
    f ∈ (service.insertFunction function).functions ↔ (f = function ∧ f ≠ "") ∨ f ∈ service.functions := by
  unfold Service.insertFunction
  split
  · rename_i hempty
    rw [hempty]
    simp
  · rename_i hne
    rw [Finset.mem_insert]
    constructor
    · rintro (rfl | h)
      · exact .inl ⟨rfl, hne⟩
      · exact .inr h
    · exact Or.imp_left And.left

theorem mem_insertFunctionToService (h : (registry (ns, name)).isSome) :
    f ∈ (registry.insertFunctionToService ns name function).functions ns' serviceName ↔
      ((ns' = ns ∧ serviceName = name) ∧ f = function ∧ f ≠ "") ∨ f ∈ registry.functions ns' serviceName := by
  obtain ⟨service, hservice⟩ := Option.isSome_iff_exists.mp h
  unfold ServicesRegistry.insertFunctionToService
  rw [hservice, functions_update]
  by_cases hkey : ns' = ns ∧ serviceName = name
  · obtain ⟨rfl, rfl⟩ := hkey
    have hold : registry.functions ns' serviceName = service.functions := by
      unfold ServicesRegistry.functions
      rw [hservice]
    rw [if_pos ⟨rfl, rfl⟩, hold]
    simp [mem_insertFunction]
  · rw [if_neg hkey]
    simp [hkey]

/-- A service that is not there is made first, which changes no functions. -/
theorem functions_insertService_new (h : registry (ns, name) = none) :
    (registry.insertService ns (.new name "")).functions ns' serviceName = registry.functions ns' serviceName := by
  rw [Service.new, functions_withParent]
  split
  · rename_i hkey
    obtain ⟨rfl, rfl⟩ := hkey
    unfold ServicesRegistry.functions
    rw [h]
  · rfl

/-- One function is added, to the service its id names. -/
theorem mem_registerServiceFromFunctionId :
    f ∈ (registry.registerServiceFromFunctionId ns functionId).functions ns' serviceName ↔
      (f ≠ "" ∧ ns = ns' ∧ IsFunctionOf functionId serviceName f) ∨ f ∈ registry.functions ns' serviceName := by
  unfold ServicesRegistry.registerServiceFromFunctionId
  rcases names_eq functionId with ⟨hservice, hfunction, hnone⟩ | ⟨name, function, hservice, hfunction, hid⟩
  · rw [hservice, hfunction]
    simp [hnone]
  · rw [hservice, hfunction]
    dsimp only
    rw [hid.iff]
    split
    · rename_i hsome
      rw [mem_insertFunctionToService hsome]
      tauto
    · rename_i hnone
      rw [mem_insertFunctionToService, functions_insertService_new]
      · tauto
      · exact Option.not_isSome_iff_eq_none.mp hnone
      · show (Function.update registry (ns, name) (some _) (ns, name)).isSome
        rw [Function.update_self]
        rfl

/-- A service is put back without a function, or dropped if that was the last. -/
theorem functions_drop (service : Service) :
    ServicesRegistry.functions (if service.functions = ∅ then Function.update registry (ns, name) none
      else Function.update registry (ns, name) (some service)) ns' serviceName =
        if ns' = ns ∧ serviceName = name then service.functions else registry.functions ns' serviceName := by
  split
  · rename_i hempty
    rw [functions_update, hempty]
    rfl
  · rw [functions_update]
    rfl

/-- One function is removed. -/
theorem mem_removeFunctionFromServices :
    f ∈ (registry.removeFunctionFromServices ns functionId).functions ns' serviceName ↔
      ¬ (ns = ns' ∧ IsFunctionOf functionId serviceName f) ∧ f ∈ registry.functions ns' serviceName := by
  unfold ServicesRegistry.removeFunctionFromServices
  rcases names_eq functionId with ⟨hservice, hfunction, hnone⟩ | ⟨name, function, hservice, hfunction, hid⟩
  · rw [hservice, hfunction]
    simp [hnone]
  · rw [hservice, hfunction]
    dsimp only
    rw [hid.iff]
    cases hentry : registry (ns, name) with
    | none =>
      have hempty : registry.functions ns name = ∅ := by
        unfold ServicesRegistry.functions
        rw [hentry]
      constructor
      · intro hf
        refine ⟨?_, hf⟩
        rintro ⟨rfl, rfl, rfl⟩
        rw [hempty] at hf
        exact Finset.notMem_empty _ hf
      · exact And.right
    | some service =>
      have hold : registry.functions ns name = service.functions := by
        unfold ServicesRegistry.functions
        rw [hentry]
      dsimp only
      rw [functions_drop]
      split
      · rename_i hkey
        obtain ⟨rfl, rfl⟩ := hkey
        rw [hold]
        show f ∈ service.functions.erase function ↔ _
        rw [Finset.mem_erase]
        tauto
      · rename_i hkey
        tauto

theorem insertService_apart {service : Service} (h : ns ≠ ns') :
    registry.insertService ns service (ns', serviceName) = registry (ns', serviceName) := by
  unfold ServicesRegistry.insertService
  rw [Function.update_of_ne]
  exact fun heq => h (Prod.ext_iff.mp heq).1.symm

theorem insertFunctionToService_apart (h : ns ≠ ns') :
    registry.insertFunctionToService ns name function (ns', serviceName) = registry (ns', serviceName) := by
  have hne : (ns', serviceName) ≠ (ns, name) := fun heq => h (Prod.ext_iff.mp heq).1.symm
  unfold ServicesRegistry.insertFunctionToService
  cases registry (ns, name) with
  | none => rfl
  | some service => exact Function.update_of_ne hne ..

theorem registerServiceFromFunctionId_apart (h : ns ≠ ns') :
    registry.registerServiceFromFunctionId ns functionId (ns', serviceName) = registry (ns', serviceName) := by
  unfold ServicesRegistry.registerServiceFromFunctionId
  rcases names_eq functionId with ⟨hservice, hfunction, _⟩ | ⟨name, function, hservice, hfunction, _⟩
  · rw [hservice, hfunction]
  · rw [hservice, hfunction]
    dsimp only
    rw [insertFunctionToService_apart h]
    split
    · rfl
    · exact insertService_apart h

theorem removeFunctionFromServices_apart (h : ns ≠ ns') :
    registry.removeFunctionFromServices ns functionId (ns', serviceName) = registry (ns', serviceName) := by
  unfold ServicesRegistry.removeFunctionFromServices
  rcases names_eq functionId with ⟨hservice, hfunction, _⟩ | ⟨name, function, hservice, hfunction, _⟩
  · rw [hservice, hfunction]
  · rw [hservice, hfunction]
    have hne : (ns', serviceName) ≠ (ns, name) := fun heq => h (Prod.ext_iff.mp heq).1.symm
    dsimp only
    cases registry (ns, name) with
    | none => rfl
    | some service =>
      dsimp only
      rw [ite_apply, Function.update_of_ne hne, Function.update_of_ne hne, ite_self]

theorem call_apart {c : Call} (h : c.ns ≠ ns) : registry.call c (ns, serviceName) = registry (ns, serviceName) := by
  cases c with
  | registerFunction ns' functionId => exact registerServiceFromFunctionId_apart h
  | removeFunction ns' functionId => exact removeFunctionFromServices_apart h
  | registerService ns' id name parentServiceId => exact insertService_apart h

end

/-! ### Runs -/

variable {past : List Call}

theorem mem_functions (h : NoneReplaced past) (ns serviceName f : String) :
    f ∈ (after past).functions ns serviceName ↔ f ≠ "" ∧ Registered ns serviceName f past := by
  induction past with
  | nil => simp [after, ServicesRegistry.functions, Registered]
  | cons c past ih =>
    cases c with
    | registerFunction ns' functionId =>
      rw [after, ServicesRegistry.call, mem_registerServiceFromFunctionId, ih h, Registered]
      tauto
    | removeFunction ns' functionId =>
      rw [after, ServicesRegistry.call, mem_removeFunctionFromServices, ih h, Registered]
      tauto
    | registerService ns' id name parentServiceId =>
      obtain ⟨hempty, h⟩ := h
      rw [Registered, ← ih h, after, ServicesRegistry.call, functions_withParent]
      by_cases hkey : ns = ns' ∧ serviceName = if name = "" then id else name
      · rw [if_pos hkey, hkey.1, hkey.2, hempty]
      · rw [if_neg hkey]

/-- In every run that replaces no service that holds functions, the services hold what is registered. -/
theorem services_mirror (h : NoneReplaced past) : Mirrors past where
  functions := mem_functions h
  stands := fun ns serviceName f hne hf => isSome_of_mem ((mem_functions h ns serviceName f).mpr ⟨hne, hf⟩)
  apart := fun _ _ _ hne => call_apart hne

/-- A service of two functions, one of them removed, and another that is made before its function. -/
theorem services_mirror_orders : Mirrors
    [.registerFunction "app" "stock::count", .registerService "app" "stock" "" none,
      .removeFunction "app" "orders::add", .registerFunction "app" "orders::item::list",
      .registerFunction "app" "orders::add"] :=
  services_mirror ⟨by decide +kernel, trivial⟩

/-- A worker registers a function and then the service it belongs to, which is left with none. -/
theorem service_replaced : ¬ ∀ past, Mirrors past := by
  intro h
  have hmem := (h [.registerService "app" "orders" "" none, .registerFunction "app" "orders::add"]).functions
    "app" "orders" "add"
  have hempty : (after [.registerService "app" "orders" "" none, .registerFunction "app" "orders::add"]).functions
      "app" "orders" = ∅ := by decide
  rw [hempty] at hmem
  exact Finset.notMem_empty _ (hmem.mpr ⟨by decide, .inl ⟨rfl, by unfold IsFunctionOf; decide⟩⟩)

end Iii.Services
