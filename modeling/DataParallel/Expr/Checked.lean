import DataParallel.Expr.Basic
import DataParallel.Lowering.Error
import DataParallel.Name.Basic

/-! What lowering demands of expressions: a name where only names can stand, and a layout once
layouts are assigned. -/

namespace DataParallel.Expr

/-- The symbol of an expression that must be a name; `context` says where it stands. -/
def expectName (context : String) (e : Expr) : Except LoweringError String :=
  match e.symbol? with
  | some symbol => .ok symbol
  | none => .error (.expectedName context e.render)

/-- The layout of an expression, which must have one. -/
def expectLayout (e : Expr) : Except LoweringError Layout :=
  match e.layout with
  | some layout => .ok layout
  | none => .error (.missingLayout e.render)

/-- The storage behind a view: its container form as a name. -/
def containerOf (view : Expr) : Except LoweringError Expr := do
  let symbol ← view.expectName "container reassignment"
  let layout ← view.expectLayout
  return .name (Name.container symbol) ⟨view.ty, some layout.containerForm⟩

end DataParallel.Expr
