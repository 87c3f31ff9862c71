/-! What can go wrong when a module is lowered or printed. None of it is a fault of a source text
that was read without an error, apart from what the entry procedure has to be. -/

namespace DataParallel

inductive LoweringError where
  /-- A tuple of targets meets a tuple of another length. -/
  | arityMismatch (targets values : Nat)
  /-- Something else stands where a name must stand. -/
  | expectedName (context found : String)
  | unregisteredProcedure (name : String)
  | missingEntryPoint (name : String)
  | malformedEntryPoint (name reason : String)
  | malformedApplication (callee reason : String)
  /-- An expression has no layout. -/
  | missingLayout (expression : String)
  /-- A tuple or closure contains itself. -/
  | cyclicValue (expression : String)
  /-- A loop whose analysis does not settle. -/
  | unsettledLoop (test : String)
deriving DecidableEq, Repr

namespace LoweringError

def message : LoweringError → String
  | .arityMismatch targets values =>
    "tuple bind arity mismatch: " ++ toString targets ++ " targets bound to " ++ toString values ++
    " values"
  | .expectedName context found =>
    "expected a plain name in " ++ context ++ " but found `" ++ found ++ "`"
  | .unregisteredProcedure name => "call to unregistered procedure `" ++ name ++ "`"
  | .missingEntryPoint name => "entry procedure `" ++ name ++ "` is not defined in this unit"
  | .malformedEntryPoint name reason =>
    "entry procedure `" ++ name ++ "` is malformed: " ++ reason
  | .malformedApplication callee reason =>
    "application of `" ++ callee ++ "` is malformed: " ++ reason
  | .missingLayout expression => "`" ++ expression ++ "` has no implementation type"
  | .cyclicValue expression => "`" ++ expression ++ "` contains itself"
  | .unsettledLoop test => "the loop over `" ++ test ++ "` does not settle"

end LoweringError

/-- Steps of a lowering that keep a state and can fail. -/
abbrev Lower (σ α : Type) := StateT σ (Except LoweringError) α

end DataParallel
