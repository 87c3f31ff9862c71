import DataParallel.Code.Basic
import DataParallel.Scopes

/-! The code of a module.

The first bind of a name in a block declares it with its layout, and later ones assign to it. A name
that is first bound inside a branch or a loop and read behind it is declared in front of it. -/

namespace DataParallel

namespace Emission

/-- Steps that know which names are declared. -/
abbrev Emitting (α : Type) := Lower (Scopes Unit) α

def declare (name : String) : Emitting Unit := modify (·.declare name)

def inScope {α : Type} (steps : Emitting α) : Emitting α := do
  modify Scopes.enter
  let result ← steps
  modify (·.leave.2)
  return result

def emitDeclare (value : Expr) : Emitting Code := do
  let name ← value.expectName "a declaration"
  let layout ← value.expectLayout
  declare name
  return .declare layout name

def emitBind (target value : Expr) : Emitting Code := do
  let name ← target.expectName "the target of a bind"
  let term ← value.toTerm
  if (← get).contains name then return .assign name term
  else
    let layout ← target.expectLayout
    declare name
    return .define layout name term

/-- Declares those of some targets that are read later and not declared yet. -/
def hoist (readLater : List String) : List Expr → Emitting (List Code)
  | [] => return []
  | target :: rest => do
    let name ← target.expectName "the target of a bind"
    if name ∈ readLater && !(← get).contains name then
      let declaration ← emitDeclare target
      return declaration :: (← hoist readLater rest)
    else hoist readLater rest

/-- Declares in front of a branch or a loop what it binds and what is read behind it. -/
def emitHoisted (s : Stmt) (behind : List Stmt) : Emitting (List Code) :=
  match s with
  | .branch .. | .loop .. => hoist (Stmt.namesAll behind) s.targets
  | _ => return []

/-- The type variables and the layout of a procedure without them. -/
def openLayout : Layout → List Layout × Layout
  | .quantified binders body => (binders, body)
  | layout => ([], layout)

def emitProcedure (name : Expr) (parameters : List Expr) (body : Emitting (List Code)) :
    Emitting Code := do
  let symbol ← name.expectName "a procedure name"
  let (binders, layout) := openLayout (← name.expectLayout)
  match layout.result? with
  | none => throw (.missingLayout name.render)
  | some result =>
    let layouts ← parameters.mapM fun e => e.expectLayout
    inScope do
      let names ← parameters.mapM fun e => e.expectName "procedure arguments"
      names.forM declare
      return .procedure binders result symbol (layouts.zip names) (← inScope body)

mutual

def emitStmt : Stmt → Emitting (List Code)
  | .bind target value => do
    let code ← emitBind target value
    return if (Stmt.bind target value).isPhaseBoundary then [code, .boundary] else [code]
  | .ret value => return [.ret (← value.toTerm)]
  | .procedure name parameters body => return [← emitProcedure name parameters (emitStmts body)]
  | .branch test whenTrue whenFalse => do
    let test ← test.toTerm
    let whenTrue ← inScope (emitStmts whenTrue)
    return [.branch test whenTrue (← inScope (emitStmts whenFalse))]
  | .loop test body => do
    let test ← test.toTerm
    return [.loop test (← inScope (emitStmts body))]
  | .structDef name binders body =>
    return [.structDef name binders (← inScope (emitStmts body))]
  | .typedef layout name => return [.typedef layout name]
  | .namespaceDef name body => return [.namespaceDef name (← inScope (emitStmts body))]
  | .header path system => return [.header path system]
  | .declare value => return [← emitDeclare value]

def emitStmts : List Stmt → Emitting (List Code)
  | [] => return []
  | s :: rest => do
    let declarations ← emitHoisted s rest
    let code ← emitStmt s
    return declarations ++ code ++ (← emitStmts rest)

end

end Emission

namespace Module

/-- The code of a module, one group for each statement. -/
def emit (module : Module) : Except LoweringError (List (List Code)) :=
  (module.mapM Emission.emitStmt).run' ∅

def print (module : Module) (style : Style) : Except LoweringError String :=
  (Code.render style) <$> module.emit

end Module
end DataParallel
