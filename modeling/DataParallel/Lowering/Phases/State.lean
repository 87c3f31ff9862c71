import DataParallel.Completion
import DataParallel.Expr.Checked
import DataParallel.Name.Supply
import DataParallel.Registry
import DataParallel.Scopes
import DataParallel.Stmt.Basic
import DataParallel.Ty.Instance

/-! What phase analysis knows at a point of a procedure.

A value is pending as long as it is a composition of views. A pending value `x` is realized by the
bind `x_phaseN = phase_boundary(x)`, and from there on `x` is read through the new name. -/

namespace DataParallel.Phases

/-- What stays the same while a module is analysed. -/
structure Context where
  registry : Registry
  entry : String
  /-- The procedures that are analysed. -/
  analyzed : List String
deriving Repr

structure State where
  /-- Whether statements of an analysed procedure are being read. -/
  active : Bool
  /-- Whether that procedure is the entry procedure. -/
  inEntry : Bool
  completions : Scopes Completion
  /-- What to read in place of a name; `none` if the name was bound again. -/
  substitutions : Scopes (Option Expr)
  /-- The fields of names that are bound to tuples. -/
  components : Scopes (Option (List Expr))
  /-- The closures that names are bound to. -/
  closures : Scopes (Option Expr)
  /-- The names bound in a scope. -/
  bound : Scopes Unit
  /-- The names bound to the result of a call of the entry procedure by itself. -/
  selfResults : List String
  /-- Binds to be put in front of the current statement. -/
  pending : List Stmt
  phases : Supply
  temporaries : Supply
deriving Repr

abbrev Analysis (α : Type) := Lower State α

namespace State

def initial : State :=
  ⟨false, false, ∅, ∅, ∅, ∅, ∅, [], [], .ofStem "_phase", .ofStem "_sync"⟩

def enter (state : State) : State :=
  { state with
    completions := state.completions.enter
    substitutions := state.substitutions.enter
    components := state.components.enter
    closures := state.closures.enter
    bound := state.bound.enter }

def leave (state : State) : State :=
  { state with
    completions := state.completions.leave.2
    substitutions := state.substitutions.leave.2
    components := state.components.leave.2
    closures := state.closures.leave.2
    bound := state.bound.leave.2 }

/-- Forgets what is known about the value of a name that was bound in an inner scope. -/
def invalidate (state : State) (name : String) : State :=
  { state with
    substitutions := state.substitutions.insert name none
    components := state.components.insert name none
    closures := state.closures.insert name none }

def invalidateAll (state : State) (names : List String) : State := names.foldl invalidate state

def setCompletion (state : State) (name : String) (completion : Completion) : State :=
  { state with completions := state.completions.insert name completion }

def setCompletions (state : State) (completions : List (String × Completion)) : State :=
  completions.foldl (fun state entry => state.setCompletion entry.1 entry.2) state

def substitute (state : State) (name : String) (e : Expr) : State :=
  { state with substitutions := state.substitutions.insert name (some e) }

def current (state : State) (e : Expr) : Expr :=
  match e.symbol? with
  | some symbol => ((state.substitutions.get? symbol).join).getD e
  | none => e

def completionOf (state : State) (name : String) : Completion :=
  (state.completions.get? name).getD .unknown

def componentsOf? (state : State) (name : String) : Option (List Expr) :=
  (state.components.get? name).join

def closureOf? (state : State) (name : String) : Option Expr := (state.closures.get? name).join

mutual

/-- The completion of a value. What is computed on the spot is complete. -/
def completionOfValue (state : State) : Expr → Completion
  | .name symbol _ => state.completionOf symbol
  | .tuple elements _ => Completion.all (completionsOfValues state elements)
  | .literal .. | .apply .. | .closure .. => .complete

def completionsOfValues (state : State) : List Expr → List Completion
  | [] => []
  | e :: rest => completionOfValue state e :: completionsOfValues state rest

end

/-- Whether there is storage behind a value, or it needs none. -/
def isBacked (state : State) (e : Expr) : Bool :=
  !e.needsContainer || e.symbol?.any fun symbol => state.completions.contains (Name.container symbol)

def record (state : State) (entry target : String) (value : Expr) (completion : Completion) : State :=
  let components :=
    if value.callee? = some Name.Snippet.makeTuple then some value.arguments
    else value.symbol?.bind state.componentsOf?
  let closure := match value with
    | .closure .. => some value
    | .name symbol _ => state.closureOf? symbol
    | _ => none
  let others := state.selfResults.filter (· ≠ target)
  { state with
    completions := state.completions.insert target completion
    components := state.components.insert target components
    closures := state.closures.insert target closure
    bound := state.bound.declare target
    selfResults := if value.callee? = some entry then target :: others else others
    substitutions :=
      if state.substitutions.contains target then state.substitutions.insert target none
      else state.substitutions }

def pend (state : State) (target value : Expr) : State :=
  { state with pending := state.pending ++ [.bind target value] }

def freshPhase (state : State) (base : String) : String × State :=
  let (name, phases) := state.phases.derive base
  (name, { state with phases })

def freshTemporary (state : State) : String × State :=
  let (name, temporaries) := state.temporaries.next
  (name, { state with temporaries })

/-- The tuples and closures that names are bound to, each as the list of its parts. -/
def values (state : State) : List (List Expr) :=
  (state.components.inner :: state.components.outer).flatMap
    (fun table => table.entries.map fun entry => entry.2.getD []) ++
  (state.closures.inner :: state.closures.outer).flatMap
    (fun table => table.entries.map fun entry => entry.2.toList)

def weight (state : State) : Nat :=
  state.values.foldr (fun parts total => Expr.sizeAll parts + 1 + total) 0

/-- The depth of the deepest type in a recorded tuple or closure. -/
def tyDepth (state : State) : Nat :=
  state.values.foldr (fun parts deepest => Nat.max (Expr.tyDepthAll parts) deepest) 0

/-- A limit on the depth to which forcing looks through the recorded values that an expression
reaches.

The demand on a field is smaller than the demand on its tuple. So forcing goes down no further than
the types are deep before it takes the type of a recorded value as the next demand, and the limit
leaves room for that at every part of a recorded value. A value that contains itself has no depth
and is refused. -/
def budget (state : State) (e : Expr) : Nat :=
  8 * (state.weight + e.size + 1) * (Nat.max state.tyDepth e.tyDepth + 1)

end State

def realize (value : Expr) : Analysis Expr := do
  let symbol ← value.expectName "a phase boundary"
  let layout := (← value.expectLayout).containerForm
  let name ← modifyGet (·.freshPhase symbol)
  let realized := Expr.name name ⟨value.ty, some layout⟩
  modify fun state =>
    (((state.pend realized
      (.applySnippet Name.Snippet.phaseBoundary [value] ⟨value.ty, some layout⟩)).setCompletion name
      .complete).setCompletion symbol .complete).substitute symbol realized
  return realized

/-- Binds a rebuilt tuple to a fresh name and reads `symbol` through it. -/
def rebuildTuple (symbol : String) (fields : List Expr) (typing : Typing) : Analysis Expr := do
  let name ← modifyGet (·.freshPhase symbol)
  let rebuilt := Expr.name name typing
  modify fun state =>
    let completion := Completion.all (state.completionsOfValues fields)
    let state := state.pend rebuilt (.applySnippet Name.Snippet.makeTuple fields typing)
    let state := (state.setCompletion name completion).setCompletion symbol completion
    { state with components := state.components.insert name (some fields) }.substitute symbol rebuilt
  return rebuilt

def rebuildClosure (symbol : String) (like closure : Expr) : Analysis Expr := do
  let name ← modifyGet (·.freshPhase symbol)
  let rebuilt := like.renamed name
  modify fun state =>
    let state := (state.pend rebuilt closure).setCompletion name .complete
    { state with closures := state.closures.insert name (some closure) }
  return rebuilt

def bindTemporary (entry : String) (value : Expr) (completion : Completion) : Analysis Expr := do
  let name ← modifyGet State.freshTemporary
  let temporary := value.renamed name
  modify fun state => (state.pend temporary value).record entry name value completion
  return temporary

end DataParallel.Phases
