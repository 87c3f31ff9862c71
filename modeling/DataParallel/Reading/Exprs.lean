import DataParallel.Expr.Basic
import DataParallel.Reading.Basic
import DataParallel.Ty.Instance

/-! Reading expressions.

```
expression := levels "||", "&&", comparisons, "+" "-", "*" "/" "%", each left-associative, over unary
unary      := "!" unary | "-" NUMBER | atom
atom       := NAME ("(" (expression ("," expression)*)? ")")?
            | NUMBER | BOOLEAN
            | "(" expression ("," expression)* ")"
            | "closure" NAME "[" (expression ("," expression)*)? "]"
```

An operator is a call of its scalar procedure. Every name is typed by its latest binding and every
call by the instance of the callee's type at the argument types. -/

namespace DataParallel.Reading

/-- The levels of infix operators, from the loosest to the tightest. -/
inductive Level where
  | disjunction
  | conjunction
  | comparison
  | term
  | factor
deriving DecidableEq, Repr

namespace Level

def tighter? : Level → Option Level
  | .disjunction => some .conjunction
  | .conjunction => some .comparison
  | .comparison => some .term
  | .term => some .factor
  | .factor => none

def includes : Level → Token.Kind → Bool
  | .disjunction, kind => kind = .logicalOr
  | .conjunction, kind => kind = .logicalAnd
  | .comparison, kind => kind.isComparison
  | .term, kind => kind.isTerm
  | .factor, kind => kind.isFactor

def operator? (level : Level) (kind : Token.Kind) : Option String :=
  if level.includes kind then kind.operator? else none

end Level

/-- The type of a name: of its latest bind, of a procedure of the unit, or of the registry. -/
def State.tyOf? (state : State) (name : String) : Option Ty :=
  (state.locals.get? name).or
    ((state.procedures.get? name).or ((state.registry.get? name).map Signature.ty))

def resolve (name : String) (span : Span) : Read Expr := do
  match (← get).tyOf? name with
  | some ty => return .name name ⟨ty, none⟩
  | none => fail (.notDefined name) span

/-- A call with the type that the callee has at its arguments. -/
def call (function : Expr) (arguments : List Expr) (span : Span) : Read Expr :=
  match function.ty.instantiate? (arguments.map Expr.ty) with
  | some (_, result) => return .apply function arguments ⟨result, none⟩
  | none =>
    fail (.cannotApply function.render function.ty (arguments.map Expr.ty)) span

def literal (kind : Token.Kind) (text : String) : Expr :=
  let scalar := match kind with
    | .integerLiteral => Scalar.int32
    | .floatLiteral => Scalar.float32
    | _ => Scalar.bool
  .literal text ⟨.scalar scalar, none⟩

/-- A function type that takes its first parameters and yields a function of the others. -/
def curry? (count : Nat) : Ty → Option Ty
  | .function parameters result =>
    if count ≤ parameters.length then
      some (.function (parameters.take count) (.function (parameters.drop count) result))
    else none
  | _ => none

/-- The type of a closure over a function of type `ty`. -/
def closureTy? (ty : Ty) (captured : List Ty) : Option Ty := do
  let curried ← match ty with
    | .quantified binders body => (curry? captured.length body).map (.quantified binders)
    | ty => curry? captured.length ty
  let (_, result) ← curried.instantiate? captured
  pure result

mutual

/-- An expression whose operators are of a level or tighter. -/
def readLevel (level : Level) : Nat → Read Expr
  | 0 => exhausted
  | n + 1 => do
    let first ← match level.tighter? with
      | some tighter => readLevel tighter n
      | none => readUnary n
    readChain level first n

/-- Applies the operators of a level that follow an operand. -/
def readChain (level : Level) (left : Expr) : Nat → Read Expr
  | 0 => exhausted
  | n + 1 => do
    let some token ← peek? | return left
    let some operator := level.operator? token.kind | return left
    drop
    let right ← match level.tighter? with
      | some tighter => readLevel tighter n
      | none => readUnary n
    let function ← resolve operator token.span
    let left ← call function [left, right] token.span
    readChain level left n

def readUnary : Nat → Read Expr
  | 0 => exhausted
  | n + 1 => do
    let token ← expectPeek "expression"
    match token.kind with
    | .bang =>
      drop
      let operand ← readUnary n
      let function ← resolve Name.negation token.span
      call function [operand] token.span
    | .minus =>
      drop
      let number ← expectNext "number"
      match number.kind with
      | .integerLiteral | .floatLiteral => return literal number.kind ("-" ++ number.text)
      | _ => fail .negatedNonNumber (token.span.join number.span)
    | _ => readAtom n

def readAtom : Nat → Read Expr
  | 0 => exhausted
  | n + 1 => do
    let token ← expectNext "expression"
    match token.kind with
    | .identifier =>
      let name ← identifier token
      let function ← resolve name token.span
      if ← nextIs .openParen then
        let (arguments, close) ← readArguments .openParen .closeParen n
        call function arguments (token.span.join close)
      else return function
    | .integerLiteral | .floatLiteral | .booleanLiteral => return literal token.kind token.text
    | .openParen =>
      let first ← readLevel .disjunction n
      let rest ← readMore n
      let _ ← expect .closeParen
      -- one expression in parentheses is that expression
      if rest.isEmpty then return first
      else return .tuple (first :: rest) ⟨.tuple ((first :: rest).map Expr.ty), none⟩
    | .keyword .closure =>
      let (name, span) ← readIdentifier
      let function ← resolve name span
      let (captured, close) ← readArguments .openBracket .closeBracket n
      match closureTy? function.ty (captured.map Expr.ty) with
      | some ty => return .closure function captured ⟨ty, none⟩
      | none =>
        fail (.cannotCapture name function.ty (captured.map Expr.ty)) (token.span.join close)
    | _ => fail (.expectedExpression token.text) token.span

/-- Takes a bracketed list of expressions, and says where its closing bracket stands. -/
def readArguments (opening closing : Token.Kind) : Nat → Read (List Expr × Span)
  | 0 => exhausted
  | n + 1 => do
    let _ ← expect opening
    if ← nextIs closing then
      let close ← expect closing
      return ([], close.span)
    else
      let first ← readLevel .disjunction n
      let rest ← readMore n
      let close ← expect closing
      return (first :: rest, close.span)

def readMore : Nat → Read (List Expr)
  | 0 => exhausted
  | n + 1 => do
    if ← eat .comma then
      let e ← readLevel .disjunction n
      return e :: (← readMore n)
    else return []

end

def readExpr (n : Nat) : Read Expr := readLevel .disjunction n

end DataParallel.Reading
