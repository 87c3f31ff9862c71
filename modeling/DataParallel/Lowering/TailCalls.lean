import DataParallel.Lowering.Containers
import DataParallel.Name.Supply

/-! Loops in place of tail calls.

A procedure `f` whose body is some statements and then `if test { ..; return f(e, ..) } else { base
}` becomes these statements, then `while test { ..; p = e; ..; the statements again }`, then `base`.
The test is negated if the call stands in the other block. A procedure that calls itself anywhere
else is left alone. -/

namespace DataParallel

/-- A body that ends in a branch, one block of which ends in a call of the procedure itself. -/
structure TailCall where
  /-- What stands in front of the branch. -/
  leading : List Stmt
  test : Expr
  /-- Whether the call is made when the test holds. -/
  whenTrue : Bool
  /-- What stands in front of the call. -/
  step : List Stmt
  arguments : List Expr
  /-- The block without the call. -/
  base : List Stmt
deriving Repr

namespace TailCall

/-- Splits a block that ends in `return f(args)` or in `r = f(args); return r` into what stands in
front of the call and the arguments. -/
def split? (symbol : String) (block : List Stmt) : Option (List Stmt × List Expr) := do
  let .ret value ← block.getLast? | none
  let rest := block.dropLast
  if value.callee? = some symbol then return (rest, value.arguments)
  else
    let result ← value.symbol?
    let .bind target call ← rest.getLast? | none
    guard (target.symbol? = some result && call.callee? = some symbol)
    return (rest.dropLast, call.arguments)

/-- Whether the procedure calls itself, or mentions itself, elsewhere too. -/
def mentions (call : TailCall) (symbol : String) : Bool :=
  symbol ∈ Stmt.namesAll call.leading ++ call.test.names ++ Stmt.namesAll call.step ++
    Expr.namesAll call.arguments ++ Stmt.namesAll call.base

/-- The tail call of a procedure, if exactly one block of its last branch makes it and nothing else
mentions the procedure. -/
def ofBody? (symbol : String) (body : List Stmt) : Option TailCall := do
  let .branch test whenTrue whenFalse ← body.getLast? | none
  let call ← match split? symbol whenTrue, split? symbol whenFalse with
    | some (step, arguments), none =>
      some ⟨body.dropLast, test, true, step, arguments, whenFalse⟩
    | none, some (step, arguments) =>
      some ⟨body.dropLast, test, false, step, arguments, whenTrue⟩
    | _, _ => none
  guard (!call.mentions symbol)
  return call

/-- The comparison that holds exactly where another does not. -/
def oppositeComparison? : String → Option String
  | "op_eq" => some "op_ne"
  | "op_ne" => some "op_eq"
  | "op_lt" => some "op_ge"
  | "op_ge" => some "op_lt"
  | "op_le" => some "op_gt"
  | "op_gt" => some "op_le"
  | _ => none

def negate (test : Expr) : Expr :=
  match test with
  | .apply function arguments typing =>
    match function.symbol?.bind oppositeComparison? with
    | some opposite => .apply (function.renamed opposite) arguments typing
    | none => .applySnippet Name.negation [test] typing
  | _ => .applySnippet Name.negation [test] test.typing

def loopTest (call : TailCall) : Expr := if call.whenTrue then call.test else negate call.test

structure State where
  temporaries : Supply
  /-- The names that the procedure mentions. -/
  declared : List String
deriving Repr

def stash (argument : Expr) : Lower State (Expr × List Stmt) := do
  let state ← get
  let (name, temporaries) := state.temporaries.next
  let temporary := argument.renamed name
  match argument.symbol?.filter fun source => Name.container source ∈ state.declared with
  | some _ =>
    let declared := Name.container name :: state.declared
    set ({ temporaries, declared } : State)
    return (temporary, ← Stmt.rebindView (· ∈ declared) temporary argument)
  | none =>
    set { state with temporaries }
    return (temporary, [.bind temporary argument])

/-- The values to be assigned, and the binds that store those which would otherwise read a parameter
that was assigned before; `assigned` are the parameters of the arguments that came before. -/
def stage (assigned : List String) : List (String × Expr) → Lower State (List Expr × List Stmt)
  | [] => return ([], [])
  | (name, argument) :: rest => do
    let (value, stored) ←
      if argument.names.any (· ∈ assigned) then stash argument else pure (argument, [])
    let (values, statements) ← stage (assigned ++ [name]) rest
    return (value :: values, stored ++ statements)

def assign (declared : List String) (parameter : Expr) (name : String) (value : Expr) :
    Except LoweringError (List Stmt) :=
  match value.symbol? with
  | some source =>
    if source = name then return [] else Stmt.rebindView (· ∈ declared) parameter value
  | none => return [.bind parameter value]

/-- Assigns all arguments to the parameters as if at once. -/
def reassign (parameters arguments : List Expr) : Lower State (List Stmt) := do
  let names ← parameters.mapM fun e => e.expectName "procedure arguments"
  let (values, stored) ← stage [] (names.zip arguments)
  let declared := (← get).declared
  let assigned ← ((parameters.zip names).zip values).mapM fun ((parameter, name), value) =>
    assign declared parameter name value
  return stored ++ assigned.flatten

/-- The body with the loop in place of the call. -/
def toLoop (call : TailCall) (parameters : List Expr) : Lower State (List Stmt) := do
  let assigned ← reassign parameters call.arguments
  return call.leading ++ .loop call.loopTest (call.step ++ assigned ++ call.leading) :: call.base

end TailCall

/-- Turns the tail call of a procedure into a loop, if it has one. -/
def Procedure.loopTailCall (entry : String) (procedure : Procedure) : Lower Supply Procedure := do
  match procedure.symbol?.bind fun symbol =>
      (TailCall.ofBody? symbol procedure.body).map fun call => (symbol, call) with
  | none => return procedure
  | some (symbol, call) =>
    if call.arguments.length ≠ procedure.parameters.length then
      throw (.malformedApplication symbol
        ("expected " ++ toString procedure.parameters.length ++ " arguments but found " ++
          toString call.arguments.length))
    let declared := procedure.declaredNames (symbol = entry)
    let (body, state) ← (call.toLoop procedure.parameters).run ⟨← get, declared⟩
    set state.temporaries
    return { procedure with body }

namespace Stmt

mutual

def loopTailCalls (entry : String) : Stmt → Lower Supply Stmt
  | .procedure name parameters body => do
    return (← Procedure.loopTailCall entry ⟨name, parameters, body⟩).toStmt
  | .branch test whenTrue whenFalse => do
    let whenTrue ← loopTailCallsAll entry whenTrue
    return .branch test whenTrue (← loopTailCallsAll entry whenFalse)
  | .loop test body => return .loop test (← loopTailCallsAll entry body)
  | .structDef name binders body =>
    return .structDef name binders (← loopTailCallsAll entry body)
  | .namespaceDef name body => return .namespaceDef name (← loopTailCallsAll entry body)
  | s => return s

def loopTailCallsAll (entry : String) : List Stmt → Lower Supply (List Stmt)
  | [] => return []
  | s :: rest => do
    let s ← loopTailCalls entry s
    return s :: (← loopTailCallsAll entry rest)

end

end Stmt

def Module.loopTailCalls (module : Module) (entry : String) : Except LoweringError Module :=
  (Stmt.loopTailCallsAll entry module).run' (.ofStem "_iter")

end DataParallel
