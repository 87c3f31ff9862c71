import DataParallel.Lowering.Phases.Forcing

/-! Phase analysis of statements.

Branches are analysed in scopes of their own and joined. A loop is analysed until one more trip
through its body changes nothing that is assumed at its head. -/

namespace DataParallel.Phases

def analyzeValue (context : Context) (e : Expr) : Analysis (Expr × Completion) := do
  analyze context ((← get).budget e) e

def analyzeBind (context : Context) (target value : Expr) : Analysis Stmt := do
  let symbol ← target.expectName "the target of a bind"
  let (value, completion) ← analyzeValue context value
  modify (·.record context.entry symbol value completion)
  return .bind target value

def analyzeReturn (context : Context) (value : Expr) : Analysis Stmt := do
  let state ← get
  if state.inEntry then return .ret (← forceReturned context (state.budget value) value)
  else return .ret (← analyzeValue context value).1

/-- Takes the binds that wait to be put in front of a statement. -/
def takePending : Analysis (List Stmt) :=
  modifyGet fun state => (state.pending, { state with pending := [] })

/-- Runs steps in a scope of their own and hands back what the scope knew of completions and which
names it bound. -/
def inScope {α : Type} (steps : Analysis α) : Analysis (α × Table Completion × List String) := do
  modify State.enter
  let result ← steps
  let state ← get
  set state.leave
  return (result, state.completions.inner, state.bound.inner.keys)

/-- The completions behind two branches of the names that one of them knows. -/
def joinBranches (state : State) (a b : Table Completion) : List (String × Completion) :=
  (a.keys ++ b.keys).map fun name =>
    let outer := state.completionOf name
    (name, ((a.get? name).getD outer).merge ((b.get? name).getD outer))

/-- Analyses a branch whose two blocks are analysed by given steps. -/
def analyzeBranch (context : Context) (test : Expr) (whenTrue whenFalse : Analysis (List Stmt)) :
    Analysis Stmt := do
  let (test, _) ← analyzeValue context test
  -- what the test needs is put in front of the whole branch
  let pending ← takePending
  let (whenTrue, completions, bound) ← inScope whenTrue
  let (whenFalse, completions', bound') ← inScope whenFalse
  modify fun state =>
    { (state.setCompletions (joinBranches state completions completions')).invalidateAll
        (bound ++ bound') with pending }
  return .branch test whenTrue whenFalse

/-- The completions of names at the head of a loop, where `head` has what is assumed there and
`trip` what holds at the end of the body. -/
def joinHead (state : State) (head trip : Table Completion) : List (String × Completion) :=
  trip.entries.map fun (name, completion) =>
    (name, ((head.get? name).getD (state.completionOf name)).merge completion)

/-- Whether a trip changes nothing that was assumed at the head of a loop. -/
def isSettled (state : State) (head : Table Completion) (joined : List (String × Completion)) : Bool :=
  joined.all fun (name, completion) =>
    completion = (head.get? name).getD (state.completionOf name)

/-- The head with what a trip changed. -/
def raiseHead (state : State) (head : Table Completion) (joined : List (String × Completion)) :
    Table Completion :=
  joined.foldl
    (fun raised (name, completion) =>
      if completion = (head.get? name).getD (state.completionOf name) then raised
      else raised.insert name completion) head

/-- Repeats trips through the body of a loop until the completions at its head settle. Names that
were drawn by an earlier trip are drawn again. -/
def settle (test : Expr) (phases temporaries : Supply) (body : Analysis (List Stmt)) :
    Nat → Table Completion → Analysis (List Stmt × List (String × Completion))
  | 0, _ => throw (.unsettledLoop test.render)
  | n + 1, head => do
    modify fun state => { state with phases, temporaries }
    let (statements, trip, _) ← inScope do
      modify (·.setCompletions head.entries)
      body
    let state ← get
    let joined := joinHead state head trip
    if isSettled state head joined then return (statements, joined)
    else settle test phases temporaries body n (raiseHead state head joined)

def knownNames (state : State) : Nat :=
  (state.completions.inner :: state.completions.outer).foldr
    (fun table total => table.size + total) 0

/-- A limit on the trips through a loop, which leaves eight for each known name, each part of a
recorded value and each part of the body. A loop that needs more trips is refused. -/
def tripLimit (state : State) (body : List Stmt) : Nat :=
  8 * (knownNames state + state.weight + Stmt.sizeAll body + 1)

/-- Analyses a loop whose body is analysed by given steps. -/
def analyzeLoop (context : Context) (test : Expr) (body : List Stmt) (steps : Analysis (List Stmt)) :
    Analysis Stmt := do
  -- every trip but the first reads what the body binds
  modify (·.invalidateAll ((body.flatMap Stmt.targets).filterMap Expr.symbol?))
  let (test, _) ← analyzeValue context test
  let pending ← takePending
  let state ← get
  let (body, joined) ←
    settle test state.phases state.temporaries steps (tripLimit state body) ∅
  modify fun state => { state.setCompletions joined with pending }
  return .loop test body

/-- What is known of the parameters of a procedure: they are complete, and the host supplies storage
for those of the entry procedure. -/
def parameterCompletions (inEntry : Bool) (parameters : List Expr) : List (String × Completion) :=
  parameters.flatMap fun parameter =>
    match parameter.symbol? with
    | some symbol =>
      if inEntry && parameter.needsContainer then
        [(symbol, .complete), (Name.container symbol, .complete)]
      else [(symbol, .complete)]
    | none => []

def analyzeProcedure (context : Context) (symbol : String) (parameters : List Expr)
    (body : Analysis (List Stmt)) : Analysis (List Stmt) := do
  let inEntry : Bool := symbol = context.entry
  modify fun state => { state with active := true, inEntry, selfResults := [] }
  let (body, _) ← inScope do
    modify (·.setCompletions (parameterCompletions inEntry parameters))
    body
  modify fun state => { state with active := false, inEntry := false }
  return body

mutual

def analyzeStmt (context : Context) : Stmt → Analysis Stmt
  | .bind target value => do
    if (← get).active then analyzeBind context target value else return .bind target value
  | .ret value => do
    if (← get).active then analyzeReturn context value else return .ret value
  | .procedure name parameters body =>
    match name.symbol?.filter (· ∈ context.analyzed) with
    | some symbol => do
      let body ← analyzeProcedure context symbol parameters (analyzeStmts context body)
      return .procedure name parameters body
    | none => return .procedure name parameters body
  | .branch test whenTrue whenFalse => do
    if (← get).active then
      analyzeBranch context test (analyzeStmts context whenTrue) (analyzeStmts context whenFalse)
    else return .branch test whenTrue whenFalse
  | .loop test body => do
    if (← get).active then analyzeLoop context test body (analyzeStmts context body)
    else return .loop test body
  | .structDef name binders body => return .structDef name binders (← analyzeStmts context body)
  | .namespaceDef name body => return .namespaceDef name (← analyzeStmts context body)
  | s => return s

/-- Analyses a block; the binds that a statement needs are put in front of it. -/
def analyzeStmts (context : Context) : List Stmt → Analysis (List Stmt)
  | [] => return []
  | s :: rest => do
    let s ← analyzeStmt context s
    let pending ← takePending
    return pending ++ s :: (← analyzeStmts context rest)

end

/-- The procedures that were found, and the names that are left to be looked up, the next one
first. -/
structure Worklist where
  known : List String
  pending : List String

namespace Worklist

/-- Looks up the next name. A procedure that was not known yet becomes known, and the names in its
body are looked up before those that are left, the last one first. -/
def step (module : Module) : Worklist → Worklist
  | ⟨known, []⟩ => ⟨known, []⟩
  | ⟨known, name :: pending⟩ =>
    match module.findProcedure? name with
    | none => ⟨known, pending⟩
    | some procedure =>
      if name ∈ known then ⟨known, pending⟩
      else ⟨known ++ [name], (Stmt.namesAll procedure.body).reverse ++ pending⟩

/-- How many names there are in the bodies of procedures that are not known. -/
def unread (known : List String) : List Procedure → Nat
  | [] => 0
  | procedure :: procedures =>
    (if procedure.symbol?.any (· ∈ known) then 0 else (Stmt.namesAll procedure.body).length) +
      unread known procedures

theorem unread_concat_le (known : List String) (name : String) (procedures : List Procedure) :
    unread (known ++ [name]) procedures ≤ unread known procedures := by
  induction procedures with
  | nil => exact Nat.le_refl _
  | cons procedure procedures ih =>
    refine Nat.add_le_add ?_ ih
    cases procedure.symbol? <;> grind

/-- The names in a body are no longer unread once its procedure is known. -/
theorem unread_concat {known : List String} {name : String} {procedure : Procedure}
    {procedures : List Procedure} (hmem : procedure ∈ procedures)
    (hname : procedure.symbol? = some name) (hnew : name ∉ known) :
    (Stmt.namesAll procedure.body).length + unread (known ++ [name]) procedures ≤
      unread known procedures := by
  induction procedures with
  | nil => cases hmem
  | cons other procedures ih =>
    rcases List.mem_cons.1 hmem with rfl | hmem
    · have hrest := unread_concat_le known name procedures
      simpa [unread, hname, hnew] using hrest
    · have hfirst := unread_concat_le known name [other]
      have hrest := ih hmem
      simp only [unread] at hfirst hrest ⊢
      omega

/-- How many names are looked up at most until none is left. -/
def size (module : Module) (list : Worklist) : Nat :=
  list.pending.length + unread list.known module.procedures

theorem size_step_lt (module : Module) {list : Worklist} (h : list.pending ≠ []) :
    (list.step module).size module < list.size module := by
  obtain ⟨known, _ | ⟨name, pending⟩⟩ := list
  · exact absurd rfl h
  · rw [step]
    split
    · simp [size]
    · rename_i procedure hfound
      split
      · simp [size]
      · rename_i hnew
        have hunread := unread_concat (List.mem_of_find?_eq_some hfound)
          (by simpa using List.find?_some hfound) hnew
        simp only [size, List.length_append, List.length_reverse, List.length_cons]
        omega

/-- Looks up names until none is left. -/
def run (module : Module) (list : Worklist) : List String :=
  if _ : list.pending = [] then list.known else run module (list.step module)
termination_by list.size module
decreasing_by exact size_step_lt module ‹_›

end Worklist

/-- The entry procedure and all procedures of a module that it mentions, directly or not. -/
def reachable (module : Module) (entry : String) : List String := Worklist.run module ⟨[], [entry]⟩

/-- A registry with the procedures of a module, which force their arguments. -/
def withProcedures (registry : Registry) (module : Module) : Registry :=
  module.procedures.foldl
    (fun registry procedure =>
      match procedure.symbol? with
      | some symbol =>
        if registry.contains symbol then registry
        else registry.insert symbol ⟨procedure.name.ty, .forces⟩
      | none => registry) registry

end Phases

/-- Inserts phase boundaries into the entry procedure of a module and all procedures it mentions. -/
def Module.insertBoundaries (module : Module) (registry : Registry) (entry : String) :
    Except LoweringError Module :=
  let context : Phases.Context :=
    ⟨Phases.withProcedures registry module, entry, Phases.reachable module entry⟩
  (Phases.analyzeStmts context module).run' Phases.State.initial

end DataParallel
