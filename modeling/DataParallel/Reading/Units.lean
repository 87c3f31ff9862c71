import DataParallel.Reading.Stmts
import DataParallel.Token.Scan

/-! Reading units.

```
unit      := item*
item      := "declare" NAME ":" type NAME ";"
           | "procedure" NAME ("<" NAME ("," NAME)* ">")? "(" (NAME ":" type),* ")" "->" type block
```

A unit is read and typed in one go, so a name is known from its bind on and a procedure from its
body on. -/

namespace DataParallel

/-- A unit: its procedures in the order of the text, and the standard registry with what the unit
declares. -/
structure SourceUnit where
  module : Module
  registry : Registry
deriving Repr

inductive Item where
  | declaration (name : String) (signature : Signature)
  | procedure (procedure : Procedure)
deriving Repr

def Item.procedure? : Item → Option Procedure
  | .declaration .. => none
  | .procedure p => some p

namespace Reading

def readDeclaration (n : Nat) : Read Item := do
  let _ ← expect (.keyword .declare)
  let (name, span) ← readIdentifier
  let _ ← expect .colon
  let ty ← readType n
  let token ← expect .identifier
  match Synchronization.ofWord? token.text with
  | none => fail (.unknownSynchronization token.text) token.span
  | some synchronization =>
    let _ ← expect .semicolon
    if !ty.isFunction then fail (.notAFunctionType name ty) span
    else if (← get).procedures.contains name then fail (.alreadyDefined name) span
    else
      let signature : Signature := ⟨ty, synchronization⟩
      modify fun state => { state with registry := state.registry.insert name signature }
      return .declaration name signature

def readMoreVariables : Nat → Read (List Ty)
  | 0 => exhausted
  | n + 1 => do
    if ← eat .comma then
      let (name, _) ← readIdentifier
      return .named name [] :: (← readMoreVariables n)
    else return []

/-- Takes the type variables of a procedure, if there are any. -/
def readTypeVariables (n : Nat) : Read (List Ty) := do
  if ← eat .lessThan then
    let (name, _) ← readIdentifier
    let rest ← readMoreVariables n
    let _ ← expect .greaterThan
    return .named name [] :: rest
  else return []

def readParameter (n : Nat) : Read Expr := do
  let (name, span) ← readIdentifier
  let _ ← expect .colon
  let ty ← readType n
  if (← get).locals.contains name then fail (.duplicateParameter name) span
  else
    setLocal name ty
    return .name name ⟨ty, none⟩

def readMoreParameters : Nat → Read (List Expr)
  | 0 => exhausted
  | n + 1 => do
    if ← eat .comma then
      let parameter ← readParameter n
      return parameter :: (← readMoreParameters n)
    else return []

def readParameters (n : Nat) : Read (List Expr) := do
  if ← nextIs .closeParen then return []
  else
    let first ← readParameter n
    return first :: (← readMoreParameters n)

def readProcedure (n : Nat) : Read Item := do
  let _ ← expect (.keyword .procedure)
  let (name, span) ← readIdentifier
  let state ← get
  if state.procedures.contains name || state.registry.contains name then
    fail (.alreadyDefined name) span
  else
    let binders ← readTypeVariables n
    modify fun state => { state with locals := ∅ }
    let _ ← expect .openParen
    let parameters ← readParameters n
    let _ ← expect .closeParen
    let _ ← expect .arrow
    let result ← readType n
    let function := Ty.function (parameters.map Expr.ty) result
    let ty := if binders.isEmpty then function else .quantified binders function
    -- known before its body, which may call it
    modify fun state => { state with procedures := state.procedures.insert name ty }
    return .procedure ⟨.name name ⟨ty, none⟩, parameters, ← readBlock n⟩

def readItems : Nat → Read (List Item)
  | 0 => exhausted
  | n + 1 => do
    match ← peek? with
    | none => return []
    | some token =>
      match token.kind with
      | .keyword .declare =>
        let declaration ← readDeclaration n
        return declaration :: (← readItems n)
      | .keyword .procedure =>
        let procedure ← readProcedure n
        return procedure :: (← readItems n)
      | _ => fail (.expectedItem token.text) token.span

def State.initial (tokens : List Token) (finish : Nat) : State :=
  ⟨tokens, .point finish, ∅, ∅, Registry.standard⟩

/-- More steps than reading any text of so many tokens takes. -/
def budget (tokens : List Token) : Nat := 16 * tokens.length + 16

/-- Reads the items of a text, and says what is known behind them. -/
def items? (text : List Char) : Except SyntaxError (List Item × State) :=
  let tokens := Token.ofText text
  (readItems (budget tokens)).run (.initial tokens (Source.size text))

end Reading

namespace SourceUnit

def ofText? (text : List Char) : Except SyntaxError SourceUnit := do
  let (items, state) ← Reading.items? text
  return ⟨(items.filterMap Item.procedure?).map Procedure.toStmt, state.registry⟩

end SourceUnit
end DataParallel
