import DataParallel.Expr.Checked

/-! Expressions of the emitted code. They carry no types, and only names are called. -/

namespace DataParallel

inductive Term where
  | name (symbol : String)
  | literal (text : String)
  | tuple (elements : List Term)
  | call (callee : String) (arguments : List Term)
  | closure (function : Term) (captured : List Term)
deriving Repr, Inhabited

namespace Expr

mutual

/-- The term of an expression. The expression and its parts must have layouts, except for a function
that is called, which must be a name. -/
def toTerm : Expr → Except LoweringError Term
  | .name symbol typing => do
    let _ ← (Expr.name symbol typing).expectLayout
    return .name symbol
  | .literal text typing => do
    let _ ← (Expr.literal text typing).expectLayout
    return .literal text
  | .tuple elements typing => do
    let _ ← (Expr.tuple elements typing).expectLayout
    return .tuple (← toTerms elements)
  | .apply function arguments typing => do
    let _ ← (Expr.apply function arguments typing).expectLayout
    let callee ← function.expectName "the function of an application"
    return .call callee (← toTerms arguments)
  | .closure function captured typing => do
    let _ ← (Expr.closure function captured typing).expectLayout
    let function ← toTerm function
    return .closure function (← toTerms captured)

def toTerms : List Expr → Except LoweringError (List Term)
  | [] => return []
  | e :: rest => do
    let term ← toTerm e
    return term :: (← toTerms rest)

end

end Expr

namespace Term

def isOperation : Term → Bool
  | .call callee _ => (Name.operatorSign? callee).isSome || callee = Name.negation
  | _ => false

/-- The text of a term as an operand. -/
def bracket (term : Term) (text : String) : String :=
  if term.isOperation then "(" ++ text ++ ")" else text

/-- The text of a call whose arguments have given texts. Two operands stand around the sign of their
operator. -/
def renderCall (ink : Ink) (callee : String) (arguments : List (Term × String)) : String :=
  let written := ink.paint .blue callee ++ "(" ++ ", ".intercalate (arguments.map Prod.snd) ++ ")"
  match arguments with
  | [left, right] =>
    match Name.operatorSign? callee with
    | some sign => left.1.bracket left.2 ++ " " ++ sign ++ " " ++ right.1.bracket right.2
    | none => written
  | [operand] =>
    if callee = Name.negation then "!" ++ operand.1.bracket operand.2 else written
  | _ => written

mutual

def render (ink : Ink) : Term → String
  | .name symbol => symbol
  | .literal text => ink.paint .magenta text
  | .tuple elements =>
    Name.Snippet.makeTuple ++ "(" ++ ", ".intercalate (renderAll ink elements) ++ ")"
  | .call callee arguments => renderCall ink callee (arguments.zip (renderAll ink arguments))
  | .closure function captured =>
    ink.paint .magenta "closure" ++ "(" ++
      ", ".intercalate (render ink function :: renderAll ink captured) ++ ")"

def renderAll (ink : Ink) : List Term → List String
  | [] => []
  | term :: rest => render ink term :: renderAll ink rest

end

end Term
end DataParallel
