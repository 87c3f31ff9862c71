/-! Names with a meaning: container forms, wrappers, and the snippets of emitted code that lowering
puts into a module. -/

namespace DataParallel.Name

/-- The name of the storage behind a view. -/
def container (name : String) : String := name ++ "_array"

/-- The name of the host's wrapper around an entry procedure. -/
def wrapper (entry : String) : String := "_wrap_" ++ entry

namespace Snippet

/-- Builds a tuple of its arguments. -/
def makeTuple : String := "thrust::make_tuple"

/-- Waits for the kernels that produce its argument and stores it. -/
def phaseBoundary : String := "phase_boundary"

/-- A view of a container. -/
def makeSequence : String := "make_sequence"

def projectionStem : String := "thrust::get<"

/-- Takes a field out of a tuple. -/
def project (index : Nat) : String := projectionStem ++ toString index ++ ">"

def decimal (digits : List Char) : Nat :=
  digits.foldl (fun value digit => 10 * value + (digit.toNat - '0'.toNat)) 0

/-- Indices are below `2 ^ 64`. -/
def indexLimit : Nat := 18446744073709551616

/-- Reads an index: decimal digits after at most one plus sign. -/
def readIndex? (text : List Char) : Option Nat :=
  let digits := match text with
    | '+' :: rest => rest
    | _ => text
  if digits ≠ [] ∧ digits.all Char.isDigit ∧ decimal digits < indexLimit then some (decimal digits)
  else none

def projection? (name : String) : Option Nat := do
  let rest ← projectionStem.toList.isPrefixOf? name.toList
  let index ← ">".toList.isSuffixOf? rest
  readIndex? index

/-- Snippets have a meaning of their own and need no entry in a registry. -/
def isSnippet (name : String) : Bool :=
  name = makeTuple || name = phaseBoundary || name = makeSequence || (projection? name).isSome

end Snippet

/-- The scalar operators that are written between their operands, with their signs. -/
def operators : List (String × String) :=
  [("op_add", "+"), ("op_sub", "-"), ("op_mul", "*"), ("op_div", "/"), ("op_mod", "%"),
   ("op_eq", "=="), ("op_ne", "!="), ("op_lt", "<"), ("op_le", "<="), ("op_gt", ">"),
   ("op_ge", ">="), ("op_and", "&&"), ("op_or", "||")]

/-- Boolean negation, written in front of its operand. -/
def negation : String := "op_not"

def operatorSign? (name : String) : Option String := operators.lookup name

end DataParallel.Name
