import DataParallel.Expr.Checked
import DataParallel.Name.Supply
import DataParallel.Stmt.Basic

/-! Taking tuples out of binds, so that a bind has one target and no tuple as its value.

A tuple bound to a tuple becomes one bind for each field. A call bound to a tuple of targets is
first bound to a temporary, so that it runs once, and each target gets its projection. A tuple bound
to one name is built by a snippet. -/

namespace DataParallel

namespace Stmt

def freshName : Lower Supply String := modifyGet Supply.next

mutual

/-- The binds that stand for one bind. -/
def flattenBind : (target value : Expr) → Lower Supply (List Stmt)
  | .tuple targets _, .tuple values _ =>
    if targets.length = values.length then flattenPairs targets values
    else throw (.arityMismatch targets.length values.length)
  | .tuple targets _, value =>
    if value.isApply then do
      let source := value.renamed (← freshName)
      return .bind source value :: (← flattenFields source 0 targets)
    else flattenFields value 0 targets
  | target, .tuple values typing =>
    return [.bind target (.applySnippet Name.Snippet.makeTuple values typing)]
  | target, value => return [.bind target value]

def flattenPairs : (targets values : List Expr) → Lower Supply (List Stmt)
  | target :: targets, value :: values => do
    let first ← flattenBind target value
    return first ++ (← flattenPairs targets values)
  | _, _ => return []

/-- Binds targets to the fields of a tuple from an index on. -/
def flattenFields (source : Expr) (index : Nat) : List Expr → Lower Supply (List Stmt)
  | [] => return []
  | target :: targets => do
    let field := Expr.applySnippet (Name.Snippet.project index) [source] target.typing
    let first ← flattenBind target field
    return first ++ (← flattenFields source (index + 1) targets)

end

mutual

def flattenTuples : Stmt → Lower Supply (List Stmt)
  | .bind target value =>
    if target.isTuple || value.isTuple then flattenBind target value
    else return [.bind target value]
  | .procedure name parameters body =>
    match parameters.find? fun parameter => !parameter.isName with
    | some parameter => throw (.expectedName "procedure arguments" parameter.render)
    | none => do return [.procedure name parameters (← flattenTuplesAll body)]
  | .branch test whenTrue whenFalse => do
    let whenTrue ← flattenTuplesAll whenTrue
    return [.branch test whenTrue (← flattenTuplesAll whenFalse)]
  | .loop test body => return [.loop test (← flattenTuplesAll body)]
  | .structDef name binders body => return [.structDef name binders (← flattenTuplesAll body)]
  | .namespaceDef name body => return [.namespaceDef name (← flattenTuplesAll body)]
  | s => return [s]

def flattenTuplesAll : List Stmt → Lower Supply (List Stmt)
  | [] => return []
  | s :: rest => do
    let first ← flattenTuples s
    return first ++ (← flattenTuplesAll rest)

end

end Stmt

def Module.flattenTuples (module : Module) : Except LoweringError Module :=
  (Stmt.flattenTuplesAll module).run' (Supply.ofStem "_tup")

end DataParallel
