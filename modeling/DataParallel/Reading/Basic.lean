import DataParallel.Reading.Error
import DataParallel.Registry

/-! Reading token by token: what is known while a unit is read, and the steps that look at or take
one token. -/

namespace DataParallel.Reading

/-- The tokens that are still to be read, and the names that are known so far. -/
structure State where
  tokens : List Token
  /-- The end of the text, where a missing token is reported. -/
  finish : Span
  /-- Parameters and bound names of the current procedure; the latest bind decides the type. -/
  locals : Table Ty
  /-- The procedures of the unit up to here. -/
  procedures : Table Ty
  registry : Registry
deriving Repr

/-- Steps that take tokens or fail. -/
abbrev Read (α : Type) := StateT State (Except SyntaxError) α

variable {α : Type}

def fail (cause : Cause) (span : Span) : Read α := throw ⟨cause, span⟩

def peek? : Read (Option Token) := do return (← get).tokens.head?

def drop : Read Unit := modify fun state => { state with tokens := state.tokens.tail }

/-- The next token, which must be there and be known to the language. -/
def expectPeek (expecting : String) : Read Token := do
  match ← peek? with
  | none => fail (.endOfText expecting) (← get).finish
  | some token =>
    if token.kind = .unknown then fail (.unexpectedCharacter token.text) token.span
    else return token

def expectNext (expecting : String) : Read Token := do
  let token ← expectPeek expecting
  drop
  return token

def expect (kind : Token.Kind) : Read Token := do
  let token ← expectNext kind.title
  if token.kind = kind then return token
  else fail (.expectedToken kind token.text) token.span

def nextIs (kind : Token.Kind) : Read Bool := do
  return (← peek?).any (·.kind = kind)

def eat (kind : Token.Kind) : Read Bool := do
  if ← nextIs kind then
    drop
    return true
  else return false

def identifier (token : Token) : Read String :=
  if token.text.toList.head? = some '_' then fail (.reservedIdentifier token.text) token.span
  else return token.text

def readIdentifier : Read (String × Span) := do
  let token ← expect .identifier
  let name ← identifier token
  return (name, token.span)

def exhausted : Read α := do
  match ← peek? with
  | some token => fail .exhausted token.span
  | none => fail .exhausted (← get).finish

end DataParallel.Reading
