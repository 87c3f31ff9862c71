import DataParallel.Layout.Columns
import DataParallel.Stmt.Basic

/-! Assigning layouts: every expression of a module gets the layout of its source type. Nothing else
decides how a value is represented. -/

namespace DataParallel

/-- Steps that remember the conversions made so far. -/
abbrev Converting (α : Type) := StateM Conversions α

/-- Replaces the layout of a typing by that of its source type. -/
def Typing.assignLayout (typing : Typing) : Converting Typing := do
  let layout ← modifyGet (Conversions.convert typing.ty)
  return ⟨typing.ty, some layout⟩

namespace Expr

mutual

def assignLayouts : Expr → Converting Expr
  | .name symbol typing => return .name symbol (← typing.assignLayout)
  | .literal text typing => return .literal text (← typing.assignLayout)
  | .tuple elements typing => do
    let elements ← assignLayoutsAll elements
    return .tuple elements (← typing.assignLayout)
  | .apply function arguments typing => do
    let function ← assignLayouts function
    let arguments ← assignLayoutsAll arguments
    return .apply function arguments (← typing.assignLayout)
  | .closure function captured typing => do
    let function ← assignLayouts function
    let captured ← assignLayoutsAll captured
    return .closure function captured (← typing.assignLayout)

def assignLayoutsAll : List Expr → Converting (List Expr)
  | [] => return []
  | e :: rest => do
    let e ← assignLayouts e
    return e :: (← assignLayoutsAll rest)

end

mutual

def isLaidOut : Expr → Bool
  | .name _ typing | .literal _ typing => typing.layout.isSome
  | .tuple elements typing => typing.layout.isSome && areLaidOut elements
  | .apply function arguments typing =>
    typing.layout.isSome && isLaidOut function && areLaidOut arguments
  | .closure function captured typing =>
    typing.layout.isSome && isLaidOut function && areLaidOut captured

def areLaidOut : List Expr → Bool
  | [] => true
  | e :: rest => isLaidOut e && areLaidOut rest

end

end Expr

namespace Stmt

mutual

def assignLayouts : Stmt → Converting Stmt
  | .bind target value => do
    let value ← value.assignLayouts
    return .bind (← target.assignLayouts) value
  | .ret value => return .ret (← value.assignLayouts)
  | .procedure name parameters body => do
    let name ← name.assignLayouts
    let parameters ← Expr.assignLayoutsAll parameters
    return .procedure name parameters (← assignLayoutsAll body)
  | .branch test whenTrue whenFalse => do
    let test ← test.assignLayouts
    let whenTrue ← assignLayoutsAll whenTrue
    return .branch test whenTrue (← assignLayoutsAll whenFalse)
  | .loop test body => do
    let test ← test.assignLayouts
    return .loop test (← assignLayoutsAll body)
  | .structDef name binders body => return .structDef name binders (← assignLayoutsAll body)
  | .namespaceDef name body => return .namespaceDef name (← assignLayoutsAll body)
  | .typedef layout name => return .typedef layout name
  | .header path system => return .header path system
  | .declare value => return .declare (← value.assignLayouts)

def assignLayoutsAll : List Stmt → Converting (List Stmt)
  | [] => return []
  | s :: rest => do
    let s ← assignLayouts s
    return s :: (← assignLayoutsAll rest)

end

mutual

def isLaidOut : Stmt → Bool
  | .bind target value => value.isLaidOut && target.isLaidOut
  | .ret value | .declare value => value.isLaidOut
  | .procedure name parameters body =>
    name.isLaidOut && Expr.areLaidOut parameters && areLaidOut body
  | .branch test whenTrue whenFalse => test.isLaidOut && areLaidOut whenTrue && areLaidOut whenFalse
  | .loop test body => test.isLaidOut && areLaidOut body
  | .structDef _ _ body | .namespaceDef _ body => areLaidOut body
  | .typedef .. | .header .. => true

def areLaidOut : List Stmt → Bool
  | [] => true
  | s :: rest => isLaidOut s && areLaidOut rest

end

end Stmt

namespace Module

def assignLayouts (module : Module) : Module :=
  ((Stmt.assignLayoutsAll module).run Conversions.empty).1

def isLaidOut (module : Module) : Bool := Stmt.areLaidOut module

end Module
end DataParallel
