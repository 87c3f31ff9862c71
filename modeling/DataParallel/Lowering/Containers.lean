import DataParallel.Expr.Checked
import DataParallel.Scopes
import DataParallel.Stmt.Basic

/-! Storage for what the entry procedure hands back.

Inside the entry procedure, binding one view to another also binds the storage behind it, and a
tuple of views whose storage is known gets a tuple of storages. All other procedures work on views
alone. -/

namespace DataParallel

namespace Stmt

/-- Binds one view to another, and first the storage behind them if both have one. -/
def rebindView (isDeclared : String → Bool) (target value : Expr) :
    Except LoweringError (List Stmt) := do
  let targetName ← target.expectName "the target of a reassignment"
  let valueName ← value.expectName "the source of a reassignment"
  if isDeclared (Name.container targetName) && isDeclared (Name.container valueName) then
    let storage ← target.containerOf
    return [.bind storage (← value.containerOf), .bind target value]
  else return [.bind target value]

end Stmt

/-- The names a procedure mentions, with the storage of the parameters that the host supplies to an
entry procedure. -/
def Procedure.declaredNames (procedure : Procedure) (isEntry : Bool) : List String :=
  Stmt.namesAll procedure.body ++ procedure.parameters.flatMap fun parameter =>
    match parameter.symbol? with
    | some symbol =>
      if isEntry && parameter.needsContainer then [symbol, Name.container symbol] else [symbol]
    | none => []

namespace Containers

structure State where
  /-- Whether statements of the entry procedure are being read. -/
  inEntry : Bool
  /-- The names seen so far, storage included. -/
  declared : Scopes Unit
deriving Repr

def State.initial : State := ⟨false, ∅⟩

abbrev Backing (α : Type) := Lower State α

def declare (names : List String) : Backing Unit :=
  modify fun state => { state with declared := names.foldl Scopes.declare state.declared }

def isDeclared : Backing (String → Bool) := do return (← get).declared.contains

/-- What becomes of the arguments of a tuple: their storage, or nothing if some storage is missing.
-/
def storages (isDeclared : String → Bool) : List Expr → Except LoweringError (Option (List Expr))
  | [] => return some []
  | e :: rest =>
    match e with
    | .literal .. => do return (← storages isDeclared rest).map (e :: ·)
    | .name symbol _ =>
      if !e.needsContainer then do return (← storages isDeclared rest).map (e :: ·)
      else if isDeclared (Name.container symbol) then do
        let storage ← e.containerOf
        return (← storages isDeclared rest).map (storage :: ·)
      else return none
    | _ => throw (.expectedName "a tuple construction" e.render)

/-- A bind of a tuple, with a bind of the tuple of storages behind it where there is one. -/
def backTuple (target value : Expr) : Backing (List Stmt) := do
  let layouts ← value.arguments.mapM fun e => e.expectLayout
  let layout := (Layout.tuple layouts).containerForm
  -- nothing in the tuple is a view
  if target.layout = some layout then return [.bind target value]
  else
    match ← storages (← isDeclared) value.arguments with
    | none => return [.bind target value]
    | some arguments =>
      let name ← target.expectName "the target of a tuple construction"
      declare [Name.container name]
      let storage := Expr.name (Name.container name) ⟨target.ty, some layout⟩
      return [.bind target value,
        .bind storage (.applySnippet Name.Snippet.makeTuple arguments ⟨value.ty, some layout⟩)]

def backBind (target value : Expr) : Backing (List Stmt) := do
  declare target.names
  if value.isName then
    let statements ← Stmt.rebindView (← isDeclared) target value
    declare value.names
    return statements
  else
    declare value.names
    if value.callee? = some Name.Snippet.makeTuple then backTuple target value
    else return [.bind target value]

def inScope {α : Type} (steps : Backing α) : Backing α := do
  modify fun state => { state with declared := state.declared.enter }
  let result ← steps
  modify fun state => { state with declared := state.declared.leave.2 }
  return result

/-- The storage of the parameters, which the host supplies. -/
def parameterStorages (parameters : List Expr) : List String :=
  parameters.filterMap fun parameter =>
    if parameter.needsContainer then parameter.symbol?.map Name.container else none

mutual

def backStmt (entry : String) : Stmt → Backing (List Stmt)
  | .bind target value => do
    if (← get).inEntry then backBind target value else return [.bind target value]
  | .ret value => do
    declare value.names
    return [.ret value]
  | .procedure name parameters body => do
    modify fun state => { state with inEntry := name.symbol? = some entry }
    if (← get).inEntry then
      let body ← inScope do
        declare (parameterStorages parameters ++ name.names ++ Expr.namesAll parameters)
        inScope (backStmts entry body)
      modify fun state => { state with inEntry := false }
      return [.procedure name parameters body]
    else return [.procedure name parameters body]
  | .branch test whenTrue whenFalse => do
    declare test.names
    let whenTrue ← inScope (backStmts entry whenTrue)
    return [.branch test whenTrue (← inScope (backStmts entry whenFalse))]
  | .loop test body => do
    declare test.names
    return [.loop test (← inScope (backStmts entry body))]
  | .structDef name binders body => do
    return [.structDef name binders (← inScope (backStmts entry body))]
  | .namespaceDef name body => return [.namespaceDef name (← inScope (backStmts entry body))]
  | .typedef layout name => return [.typedef layout name]
  | .header path system => return [.header path system]
  | .declare value => do
    declare value.names
    return [.declare value]

def backStmts (entry : String) : List Stmt → Backing (List Stmt)
  | [] => return []
  | s :: rest => do
    let first ← backStmt entry s
    return first ++ (← backStmts entry rest)

end

end Containers

def Module.backEntry (module : Module) (entry : String) : Except LoweringError Module :=
  (Containers.inScope (Containers.backStmts entry module)).run' Containers.State.initial

end DataParallel
