import DataParallel.Source.Span

/-! Tokens of the unit language: keywords, kinds and the operators behind infix signs. -/

namespace DataParallel

inductive Keyword where
  | procedure
  | declare
  | return_
  | if_
  | else_
  | while_
  | closure
  | forall_
  | fn
deriving DecidableEq, Repr

namespace Keyword

def all : List Keyword :=
  [.procedure, .declare, .return_, .if_, .else_, .while_, .closure, .forall_, .fn]

def word : Keyword → String
  | .procedure => "procedure"
  | .declare => "declare"
  | .return_ => "return"
  | .if_ => "if"
  | .else_ => "else"
  | .while_ => "while"
  | .closure => "closure"
  | .forall_ => "forall"
  | .fn => "fn"

def ofWord? (text : String) : Option Keyword := all.find? (·.word = text)

def title : Keyword → String
  | .procedure => "Procedure"
  | .declare => "Declare"
  | .return_ => "Return"
  | .if_ => "If"
  | .else_ => "Else"
  | .while_ => "While"
  | .closure => "Closure"
  | .forall_ => "Forall"
  | .fn => "Fn"

end Keyword

namespace Token

inductive Kind where
  | keyword (keyword : Keyword)
  | identifier
  | booleanLiteral
  | integerLiteral
  | floatLiteral
  | openParen
  | closeParen
  | openBracket
  | closeBracket
  | openBrace
  | closeBrace
  | semicolon
  | comma
  | colon
  | arrow
  | dot
  | equals
  | bang
  | plus
  | minus
  | asterisk
  | divide
  | modulus
  | logicalAnd
  | logicalOr
  | doubleEquals
  | notEquals
  | lessThan
  | lessThanOrEqualTo
  | greaterThan
  | greaterThanOrEqualTo
  /-- A character that starts no token. -/
  | unknown
deriving DecidableEq, Repr

namespace Kind

def title : Kind → String
  | .keyword k => "Keyword(" ++ k.title ++ ")"
  | .identifier => "Identifier"
  | .booleanLiteral => "BooleanLiteral"
  | .integerLiteral => "IntegerLiteral"
  | .floatLiteral => "FloatLiteral"
  | .openParen => "OpenParen"
  | .closeParen => "CloseParen"
  | .openBracket => "OpenBracket"
  | .closeBracket => "CloseBracket"
  | .openBrace => "OpenBrace"
  | .closeBrace => "CloseBrace"
  | .semicolon => "Semicolon"
  | .comma => "Comma"
  | .colon => "Colon"
  | .arrow => "Arrow"
  | .dot => "Dot"
  | .equals => "Equals"
  | .bang => "Bang"
  | .plus => "Plus"
  | .minus => "Minus"
  | .asterisk => "Asterisk"
  | .divide => "Divide"
  | .modulus => "Modulus"
  | .logicalAnd => "LogicalAnd"
  | .logicalOr => "LogicalOr"
  | .doubleEquals => "DoubleEquals"
  | .notEquals => "NotEquals"
  | .lessThan => "LessThan"
  | .lessThanOrEqualTo => "LessThanOrEqualTo"
  | .greaterThan => "GreaterThan"
  | .greaterThanOrEqualTo => "GreaterThanOrEqualTo"
  | .unknown => "Unknown"

/-- The scalar procedure that an operator sign stands for. -/
def operator? : Kind → Option String
  | .plus => some "op_add"
  | .minus => some "op_sub"
  | .asterisk => some "op_mul"
  | .divide => some "op_div"
  | .modulus => some "op_mod"
  | .doubleEquals => some "op_eq"
  | .notEquals => some "op_ne"
  | .lessThan => some "op_lt"
  | .lessThanOrEqualTo => some "op_le"
  | .greaterThan => some "op_gt"
  | .greaterThanOrEqualTo => some "op_ge"
  | .logicalAnd => some "op_and"
  | .logicalOr => some "op_or"
  | .bang => some "op_not"
  | _ => none

def isComparison : Kind → Bool
  | .doubleEquals | .notEquals | .lessThan | .lessThanOrEqualTo | .greaterThan
  | .greaterThanOrEqualTo => true
  | _ => false

def isTerm : Kind → Bool
  | .plus | .minus => true
  | _ => false

def isFactor : Kind → Bool
  | .asterisk | .divide | .modulus => true
  | _ => false

end Kind
end Token

/-- A token of a source text: what it is, how it is written and where it stands. -/
structure Token where
  kind : Token.Kind
  text : String
  span : Span
deriving DecidableEq, Repr

end DataParallel
