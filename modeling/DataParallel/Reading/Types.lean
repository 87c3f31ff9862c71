import DataParallel.Reading.Basic

/-! Reading types.

```
type := "forall" NAME+ "." type
      | "[" type "]"
      | "(" type ("," type)* ")"
      | "fn" "(" (type ("," type)*)? ")" "->" type
      | NAME ("<" type ("," type)* ">")?
```

Each function takes the number of steps it may still go down. -/

namespace DataParallel.Reading

def readVariables : Nat → Read (List Ty)
  | 0 => exhausted
  | n + 1 => do
    if ← eat .dot then return []
    let (name, _) ← readIdentifier
    return .named name [] :: (← readVariables n)

mutual

def readType : Nat → Read Ty
  | 0 => exhausted
  | n + 1 => do
    let token ← expectNext "type"
    match token.kind with
    | .keyword .forall_ =>
      let binders ← readVariables n
      if binders.isEmpty then fail .emptyQuantifier token.span
      else return .quantified binders (← readType n)
    | .openBracket =>
      let element ← readType n
      let _ ← expect .closeBracket
      return .sequence element
    | .openParen =>
      let first ← readType n
      let rest ← readMoreTypes n
      let _ ← expect .closeParen
      -- one type in parentheses is that type
      return if rest.isEmpty then first else .tuple (first :: rest)
    | .keyword .fn =>
      let _ ← expect .openParen
      let parameters ← readParameterTypes n
      let _ ← expect .closeParen
      let _ ← expect .arrow
      return .function parameters (← readType n)
    | .identifier =>
      let name ← identifier token
      if ← eat .lessThan then
        let first ← readType n
        let rest ← readMoreTypes n
        let _ ← expect .greaterThan
        return .named name (first :: rest)
      else return .named name []
    | _ => fail (.expectedType token.text) token.span

def readMoreTypes : Nat → Read (List Ty)
  | 0 => exhausted
  | n + 1 => do
    if ← eat .comma then
      let ty ← readType n
      return ty :: (← readMoreTypes n)
    else return []

def readParameterTypes : Nat → Read (List Ty)
  | 0 => exhausted
  | n + 1 => do
    if ← nextIs .closeParen then return []
    else
      let first ← readType n
      return first :: (← readMoreTypes n)

end

end DataParallel.Reading
