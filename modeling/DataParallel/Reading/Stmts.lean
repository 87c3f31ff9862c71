import DataParallel.Reading.Exprs
import DataParallel.Reading.Types
import DataParallel.Stmt.Basic

/-! Reading statements.

```
block     := "{" statement* "}"
statement := "return" expression ";"
           | "if" expression block ("else" (block | if))?
           | "while" expression block
           | binder "=" expression ";"
binder    := NAME (":" type)? | "(" binder ("," binder)* ")"
```
-/

namespace DataParallel.Reading

/-- The left side of a bind before its value gives the names without a type one. -/
inductive Binder where
  | name (symbol : String) (ty : Option Ty) (span : Span)
  | tuple (binders : List Binder)
deriving Repr

mutual

def readBinder : Nat → Read Binder
  | 0 => exhausted
  | n + 1 => do
    if ← eat .openParen then
      let first ← readBinder n
      let rest ← readMoreBinders n
      let _ ← expect .closeParen
      return .tuple (first :: rest)
    else
      let (name, span) ← readIdentifier
      if ← eat .colon then return .name name (some (← readType n)) span
      else return .name name none span

def readMoreBinders : Nat → Read (List Binder)
  | 0 => exhausted
  | n + 1 => do
    if ← eat .comma then
      let binder ← readBinder n
      return binder :: (← readMoreBinders n)
    else return []

end

def setLocal (name : String) (ty : Ty) : Read Unit :=
  modify fun state => { state with locals := state.locals.insert name ty }

mutual

/-- The target of a bind to a value of a type, if that is known. A tuple of targets takes apart the
fields of a tuple type of the same length. -/
def bindTarget (valueTy : Option Ty) : Binder → Read Expr
  | .name symbol ty span =>
    match ty.or valueTy with
    | some ty => do
      setLocal symbol ty
      return .name symbol ⟨ty, none⟩
    | none => fail (.uninferredType symbol) span
  | .tuple binders => do
    let fields := (valueTy.bind Ty.fields?).filter (·.length = binders.length)
    let elements ← bindTargets fields binders
    return .tuple elements ⟨.tuple (elements.map Expr.ty), none⟩

/-- The targets of a tuple, whose field types are all known or all unknown. -/
def bindTargets (fields : Option (List Ty)) : List Binder → Read (List Expr)
  | [] => return []
  | binder :: rest => do
    let target ← bindTarget (fields.bind List.head?) binder
    return target :: (← bindTargets (fields.map List.tail) rest)

end

mutual

def readBlock : Nat → Read (List Stmt)
  | 0 => exhausted
  | n + 1 => do
    let _ ← expect .openBrace
    let statements ← readStmts n
    let _ ← expect .closeBrace
    return statements

def readStmts : Nat → Read (List Stmt)
  | 0 => exhausted
  | n + 1 => do
    let token ← expectPeek "statement or closing brace"
    if token.kind = .closeBrace then return []
    else
      let statement ← readStmt n
      return statement :: (← readStmts n)

def readStmt : Nat → Read Stmt
  | 0 => exhausted
  | n + 1 => do
    let token ← expectPeek "statement"
    match token.kind with
    | .keyword .return_ =>
      drop
      let value ← readExpr n
      let _ ← expect .semicolon
      return .ret value
    | .keyword .if_ => readBranch n
    | .keyword .while_ =>
      drop
      let test ← readExpr n
      return .loop test (← readBlock n)
    | .identifier | .openParen =>
      let binder ← readBinder n
      let _ ← expect .equals
      let value ← readExpr n
      let _ ← expect .semicolon
      -- the value is read before its target has a type
      return .bind (← bindTarget (some value.ty) binder) value
    | _ => fail (.expectedStatement token.text) token.span

def readBranch : Nat → Read Stmt
  | 0 => exhausted
  | n + 1 => do
    let _ ← expect (.keyword .if_)
    let test ← readExpr n
    let whenTrue ← readBlock n
    return .branch test whenTrue (← readElse n)

/-- Takes what stands behind a branch, which is nothing, a block or a further branch. -/
def readElse : Nat → Read (List Stmt)
  | 0 => exhausted
  | n + 1 => do
    if ← eat (.keyword .else_) then
      if ← nextIs (.keyword .if_) then return [← readBranch n]
      else readBlock n
    else return []

end

end DataParallel.Reading
