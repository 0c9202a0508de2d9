import Iii.Compose.Plan
import Iii.Lib.Acyclic

/-! The dependencies of a compose file (`iii-compose`, `dag.rs`).

A container starts after those it names, perhaps twice. The graph is walked in the order of
declaration throughout: to find a cycle, to order the containers, to group an order into waves, to
collect what a container needs and what needs it, and to draw it as a tree. -/
namespace Iii.Compose
open Lib

/-- The containers in the order they are declared, each with what it names in `start_after`. -/
structure Project where
  containers : List (String × List String)
  distinct : (containers.map (·.1)).Nodup

def Project.keys (file : Project) : List String := file.containers.map (·.1)

/-- What a container starts after; nothing for a name that is not declared. -/
def Project.startAfter (file : Project) (key : String) : List String :=
  (Assoc.get? file.containers key).getD []

inductive DagError where
  | unknownDependency (container dependency : String)
  | dependencyCycle (path : String)
  /-- The recursion of the model ended early; the code has no such error, and it is never met. -/
  | tooDeep
deriving DecidableEq

/-! ### Validation -/

/-- `visit`, on the settled containers and the path to the key; the result has both as they are
afterwards. `depth` bounds the recursion. -/
def visit (file : Project) : (depth : Nat) → (key : String) → Finset String × List String →
    Except DagError (Finset String × List String)
  | 0, _, _ => .error .tooDeep
  | depth + 1, key, (settled, onPath) =>
    if key ∈ settled then .ok (settled, onPath)
    else if key ∈ onPath then
      .error (.dependencyCycle (String.intercalate " -> " (onPath.drop (onPath.idxOf key) ++ [key])))
    else do
      let (settled, onPath) ← (file.startAfter key).foldlM (fun state dependency => visit file depth dependency state)
        (settled, onPath ++ [key])
      return (insert key settled, onPath.dropLast)

/-- More than the names there are. -/
def Project.depth (file : Project) : Nat := (file.keys ++ file.keys.flatMap file.startAfter).length + 1

def detectCycle (file : Project) : Except DagError Unit := do
  let _ ← file.keys.foldlM (fun state key => visit file file.depth key state) (∅, [])
  return ()

/-- The inner loop: what one container starts after is declared. -/
def checkDeclared (file : Project) (container : String × List String) : Except DagError Unit :=
  forM container.2 fun dependency => ensure (dependency ∈ file.keys) (.unknownDependency container.1 dependency)

def validateDependencies (file : Project) : Except DagError Unit := do
  forM file.containers (checkDeclared file)
  detectCycle file

/-! ### Ordering -/

/-- What `topo_order` counts: how many names each container still waits for, and who waits for a
name, once for each time it is named. -/
structure Kahn where
  pending : SortedMap String Nat
  dependents : SortedMap String (List String)

def Kahn.add (kahn : Kahn) (container : String × List String) : Kahn where
  pending := kahn.pending.insert container.1 container.2.length
  dependents := container.2.foldl (fun dependents dependency =>
    dependents.insert dependency ((dependents.get? dependency).getD [] ++ [container.1])) kahn.dependents

def Kahn.ofFile (file : Project) : Kahn := file.containers.foldl Kahn.add ⟨.empty, .empty⟩

/-- One dependent of a container that was emitted. -/
def release (state : SortedMap String Nat × List String) (dependent : String) : SortedMap String Nat × List String :=
  match state.1.get? dependent with
  | some count => (state.1.insert dependent (count - 1), if count - 1 = 0 then state.2 ++ [dependent] else state.2)
  | none => state

def drain (dependents : SortedMap String (List String)) : (rounds : Nat) → SortedMap String Nat → (ready order : List String) →
    List String
  | 0, _, _, order => order
  | _, _, [], order => order
  | rounds + 1, pending, key :: ready, order =>
    let (pending, ready) := ((dependents.get? key).getD []).foldl release (pending, ready)
    drain dependents rounds pending ready (order ++ [key])

def topoOrder (file : Project) : Except DagError (List String) :=
  let kahn := Kahn.ofFile file
  let ready := file.keys.filter fun key => kahn.pending.get? key = some 0
  let order := drain kahn.dependents file.containers.length kahn.pending ready []
  if order.length ≠ file.containers.length then .error (.dependencyCycle "unresolved dependencies") else .ok order

/-- The wave of a container: after the last wave of those it starts after, when they are in the order. -/
def waveOf (file : Project) (placed : SortedMap String Nat) (key : String) : Nat :=
  ((((file.startAfter key).filterMap placed.get?).map (· + 1)).max?).getD 0

/-- `waves.resize(at + 1, ..)` and `waves[at].push(key)`. -/
def pushWave (waves : List (List String)) (at' : Nat) (key : String) : List (List String) :=
  let waves := if waves.length ≤ at' then waves ++ List.replicate (at' + 1 - waves.length) [] else waves
  waves.modify at' (· ++ [key])

def waves (file : Project) (order : List String) : List (List String) :=
  (order.foldl (fun (state : SortedMap String Nat × List (List String)) key =>
    let at' := waveOf file state.1 key
    (state.1.insert key at', pushWave state.2 at' key)) (.empty, [])).2

/-! ### Reaching -/

def closureLoop (file : Project) : (rounds : Nat) → (queue : List String) → (closure : Finset String) → Finset String
  | 0, _, closure => closure
  | _, [], closure => closure
  | rounds + 1, current :: queue, closure =>
    if current ∈ closure then closureLoop file rounds queue closure
    else closureLoop file rounds (queue ++ file.startAfter current) (insert current closure)

/-- As many rounds as names can be queued. -/
def dependencyClosure (file : Project) (key : String) : Finset String :=
  closureLoop file ((file.containers.map (·.2.length)).sum + 1) [key] ∅

/-- One candidate for a container that has to stop before `current`. -/
def discover (current : String) (state : Finset String × List String) (candidate : String × List String) :
    Finset String × List String :=
  if current ∉ candidate.2 then state
  else if candidate.1 ∈ state.1 then state
  else (insert candidate.1 state.1, state.2 ++ [candidate.1])

def dependentsLoop (file : Project) : (rounds : Nat) → (queue : List String) → (discovered : Finset String) →
    Finset String
  | 0, _, discovered => discovered
  | _, [], discovered => discovered
  | rounds + 1, current :: queue, discovered =>
    let (discovered, queue) := file.containers.foldl (discover current) (discovered, queue)
    dependentsLoop file rounds queue discovered

def transitiveDependents (file : Project) (key : String) : List String :=
  let discovered := dependentsLoop file (file.containers.length + 1) [key] ∅
  match topoOrder file with
  | .ok startOrder => startOrder.reverse.filter (· ∈ discovered)
  | .error _ => file.keys.filter (· ∈ discovered)

/-! ### The tree -/

/-- `parent.entry(dependency).or_insert(key)`, when the dependency is shown. -/
def adopt (order : List String) (key : String) (parent : SortedMap String String) (dependency : String) :
    SortedMap String String :=
  if dependency ∈ order ∧ (parent.get? dependency).isNone then parent.insert dependency key else parent

/-- The first container, as declared, that waits for this one; both ends are shown. -/
def parents (file : Project) (order : List String) : SortedMap String String :=
  file.containers.foldl (fun parent container =>
    if container.1 ∈ order then container.2.foldl (adopt order container.1) parent else parent) .empty

def childrenOf (order : List String) (parent : SortedMap String String) : SortedMap String (List String) :=
  order.foldl (fun children key =>
    match parent.get? key with
    | some owner => children.insert owner ((children.get? owner).getD [] ++ [key])
    | none => children) .empty

/-- The rows under a container; `rows` bounds how deep they go. -/
def walkTree (children : SortedMap String (List String)) : (rows : Nat) → (key : String) → (depth : Nat) →
    List (String × Nat)
  | 0, _, _ => []
  | rows + 1, key, depth =>
    (key, depth) :: ((children.get? key).getD []).flatMap fun child => walkTree children rows child (depth + 1)

def outline (file : Project) (order : List String) : List (String × Nat) :=
  let parent := parents file order
  let children := childrenOf order parent
  (order.filter fun key => (parent.get? key).isNone).flatMap fun key => walkTree children order.length key 0

end Iii.Compose
