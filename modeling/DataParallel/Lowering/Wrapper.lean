import DataParallel.Expr.Checked
import DataParallel.Stmt.Basic

/-! The wrapper that the host calls. The host hands over storage; the wrapper takes views of it,
calls the entry procedure and returns the storage that this hands back. -/

namespace DataParallel

/-- What the host has to know to call the wrapper. -/
structure Wrapper where
  name : String
  result : Layout
  arguments : List (String × Layout)
deriving DecidableEq, Repr

namespace Wrapper

/-- A parameter of the wrapper, and how the entry procedure's parameter is made from it. -/
structure Parameter where
  parameter : Expr
  symbol : String
  layout : Layout
  binds : List Stmt
deriving Repr

def wrapParameter (entry : String) (parameter : Expr) : Except LoweringError Parameter :=
  match parameter.symbol? with
  | none =>
    throw (.malformedEntryPoint entry ("argument `" ++ parameter.render ++ "` is not a name"))
  | some symbol => do
    let layout ← parameter.expectLayout
    if parameter.needsContainer then
      let name := Name.container symbol
      let storage := Expr.name name ⟨parameter.ty, some layout.containerForm⟩
      return ⟨storage, name, layout.containerForm,
        [.bind parameter (.applySnippet Name.Snippet.makeSequence [storage]
          ⟨parameter.ty, some layout⟩)]⟩
    else return ⟨parameter, symbol, layout, []⟩

/-- The source type and the layout of what the entry procedure returns. -/
def resultTyping (entry : String) (name : Expr) : Except LoweringError (Ty × Layout) :=
  match name.ty with
  | .function _ result => do
    match (← name.expectLayout).result? with
    | some layout => return (result, layout)
    | none => throw (.malformedEntryPoint entry "its implementation type is not a function")
  | ty =>
    throw (.malformedEntryPoint entry ("`" ++ ty.render ++ "` is not a monomorphic function type"))

/-- The wrapper of a procedure, and what the host has to know of it. -/
def ofProcedure (entry : String) (procedure : Procedure) :
    Except LoweringError (Procedure × Wrapper) := do
  let (result, layout) ← resultTyping entry procedure.name
  let wrapped ← procedure.parameters.mapM (wrapParameter entry)
  let wrapper : Wrapper :=
    ⟨Name.wrapper entry, layout.containerForm, wrapped.map fun w => (w.symbol, w.layout)⟩
  let parameters := wrapped.map Parameter.parameter
  let name := Expr.name wrapper.name
    ⟨.function (parameters.map Expr.ty) result,
      some (.function (wrapper.arguments.map Prod.snd) wrapper.result)⟩
  let call := Expr.apply procedure.name procedure.parameters ⟨result, some layout⟩
  return (⟨name, parameters, wrapped.flatMap Parameter.binds ++ [.ret call]⟩, wrapper)

end Wrapper

/-- Appends the wrapper of the entry procedure to a module. -/
def Module.wrapEntry (module : Module) (entry : String) :
    Except LoweringError (Module × Wrapper) :=
  match module.findProcedure? entry with
  | none => throw (.missingEntryPoint entry)
  | some procedure => do
    let (wrapping, wrapper) ← Wrapper.ofProcedure entry procedure
    return (module ++ [wrapping.toStmt], wrapper)

end DataParallel
