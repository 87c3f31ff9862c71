import DataParallel.Token.Basic
import DataParallel.Ty.Basic

/-! Faults of a source text, each with the span it points to. -/

namespace DataParallel

namespace Reading

/-- Why a text cannot be read. Texts in the constructors are quoted from the source. -/
inductive Cause where
  | expectedItem (found : String)
  | endOfText (expecting : String)
  | unexpectedCharacter (found : String)
  | expectedToken (kind : Token.Kind) (found : String)
  | reservedIdentifier (name : String)
  | unknownSynchronization (found : String)
  | notAFunctionType (name : String) (ty : Ty)
  | alreadyDefined (name : String)
  | duplicateParameter (name : String)
  | emptyQuantifier
  | expectedType (found : String)
  | expectedStatement (found : String)
  | uninferredType (name : String)
  | negatedNonNumber
  | expectedExpression (found : String)
  | cannotCapture (function : String) (ty : Ty) (captured : List Ty)
  | notDefined (name : String)
  | cannotApply (function : String) (ty : Ty) (arguments : List Ty)
  /-- The budget of steps is spent. A budget computed from the text never is. -/
  | exhausted
deriving DecidableEq, Repr

def quoted (text : String) : String := "`" ++ text ++ "`"

def Cause.message : Cause → String
  | .expectedItem found => "expected `procedure` or `declare` but found " ++ quoted found
  | .endOfText expecting => "expected " ++ expecting ++ " but reached end of file"
  | .unexpectedCharacter found => "unexpected character " ++ quoted found
  | .expectedToken kind found => "expected " ++ kind.title ++ " but found " ++ quoted found
  | .reservedIdentifier name =>
    "identifier " ++ quoted name ++ " is reserved: names starting with `_` belong to the compiler"
  | .unknownSynchronization found =>
    "unknown synchronization " ++ quoted found ++ ", expected `forces`, `propagates` or `opaque`"
  | .notAFunctionType name ty =>
    quoted name ++ " must be declared with a function type, not " ++ ty.render
  | .alreadyDefined name => quoted name ++ " is already defined"
  | .duplicateParameter name => "duplicate parameter " ++ quoted name
  | .emptyQuantifier => "`forall` binds no type variables"
  | .expectedType found => "expected a type but found " ++ quoted found
  | .expectedStatement found => "expected a statement but found " ++ quoted found
  | .uninferredType name => "the type of " ++ quoted name ++ " cannot be inferred, annotate it"
  | .negatedNonNumber => "negation only applies to number literals"
  | .expectedExpression found => "expected an expression but found " ++ quoted found
  | .cannotCapture function ty captured =>
    quoted function ++ " of type " ++ ty.render ++ " cannot capture (" ++ Ty.renderList captured ++
    ")"
  | .notDefined name => quoted name ++ " is not defined"
  | .cannotApply function ty arguments =>
    quoted function ++ " of type " ++ ty.render ++ " cannot be applied to (" ++
    Ty.renderList arguments ++ ")"
  | .exhausted => "the text is too deep to be read"

end Reading

structure SyntaxError where
  cause : Reading.Cause
  span : Span
deriving DecidableEq, Repr

def SyntaxError.message (error : SyntaxError) : String := error.cause.message

end DataParallel
