import DataParallel.Expr.Basic
import DataParallel.Name.Basic
import DataParallel.Text.Lines

/-! Statements and modules. A module is a list of statements; one that was read from a text holds
procedures only. -/

namespace DataParallel

inductive Stmt where
  | bind (target value : Expr)
  | ret (value : Expr)
  | procedure (name : Expr) (parameters : List Expr) (body : List Stmt)
  | branch (test : Expr) (whenTrue whenFalse : List Stmt)
  | loop (test : Expr) (body : List Stmt)
  /-- A structure type with type variables. -/
  | structDef (name : String) (binders : List String) (body : List Stmt)
  | typedef (layout : Layout) (name : String)
  | namespaceDef (name : String) (body : List Stmt)
  /-- The inclusion of a header. -/
  | header (path : String) (system : Bool)
  /-- A declaration without a value. -/
  | declare (value : Expr)
deriving Repr, Inhabited

/-- A procedure: its typed name, its parameters and its body. -/
structure Procedure where
  name : Expr
  parameters : List Expr
  body : List Stmt
deriving Repr

namespace Procedure

def symbol? (procedure : Procedure) : Option String := procedure.name.symbol?

/-- The names of the parameters, if all are names. -/
def parameterNames? (procedure : Procedure) : Option (List String) :=
  procedure.parameters.mapM Expr.symbol?

def toStmt (procedure : Procedure) : Stmt :=
  .procedure procedure.name procedure.parameters procedure.body

end Procedure

namespace Stmt

mutual

def beq : Stmt → Stmt → Bool
  | .bind a b, .bind c d => a == c && b == d
  | .ret a, .ret b | .declare a, .declare b => a == b
  | .procedure a ps as, .procedure b qs bs => a == b && ps == qs && beqAll as bs
  | .branch a as bs, .branch b cs ds => a == b && beqAll as cs && beqAll bs ds
  | .loop a as, .loop b bs => a == b && beqAll as bs
  | .structDef a vs as, .structDef b ws bs => a == b && vs == ws && beqAll as bs
  | .typedef l a, .typedef m b => l == m && a == b
  | .namespaceDef a as, .namespaceDef b bs => a == b && beqAll as bs
  | .header a s, .header b t => a == b && s == t
  | _, _ => false

def beqAll : List Stmt → List Stmt → Bool
  | [], [] => true
  | a :: as, b :: bs => beq a b && beqAll as bs
  | _, _ => false

end

mutual

theorem beq_iff : (a b : Stmt) → (beq a b = true ↔ a = b)
  | .bind .., b | .ret _, b | .typedef .., b | .header .., b | .declare _, b => by
    cases b <;> simp [beq]
  | .procedure _ _ as, b | .loop _ as, b | .structDef _ _ as, b | .namespaceDef _ as, b => by
    cases b <;> simp [beq, beqAll_iff as, and_assoc]
  | .branch _ as bs, b => by
    cases b <;> simp [beq, beqAll_iff as, beqAll_iff bs, and_assoc]

theorem beqAll_iff : (as bs : List Stmt) → (beqAll as bs = true ↔ as = bs)
  | [], bs => by cases bs <;> simp [beqAll]
  | a :: as, bs => by cases bs <;> simp [beqAll, beq_iff a, beqAll_iff as]

end

instance : DecidableEq Stmt := fun a b => decidable_of_iff (beq a b = true) (beq_iff a b)

def procedure? : Stmt → Option Procedure
  | .procedure name parameters body => some ⟨name, parameters, body⟩
  | _ => none

/-- Whether a statement binds the result of a phase boundary. -/
def isPhaseBoundary : Stmt → Bool
  | .bind _ value => value.callee? = some Name.Snippet.phaseBoundary
  | _ => false

mutual

/-- All names in a statement and in the statements nested in it. -/
def names : Stmt → List String
  | .bind target value => target.names ++ value.names
  | .ret value | .declare value => value.names
  | .procedure name parameters body => name.names ++ Expr.namesAll parameters ++ namesAll body
  | .branch test whenTrue whenFalse => test.names ++ namesAll whenTrue ++ namesAll whenFalse
  | .loop test body => test.names ++ namesAll body
  | .structDef _ _ body | .namespaceDef _ body => namesAll body
  | .typedef .. | .header .. => []

def namesAll : List Stmt → List String
  | [] => []
  | s :: rest => names s ++ namesAll rest

end

mutual

/-- The bound names, one for each bind, in a statement and in its branches and loops. -/
def boundNames : Stmt → List Expr
  | .bind target _ => if target.isName then [target] else []
  | .branch _ whenTrue whenFalse => boundNamesAll whenTrue ++ boundNamesAll whenFalse
  | .loop _ body => boundNamesAll body
  | _ => []

def boundNamesAll : List Stmt → List Expr
  | [] => []
  | s :: rest => boundNames s ++ boundNamesAll rest

end

/-- Keeps the first expression of each name; `seen` are the names that came before. -/
def firstOfEachName (seen : List (Option String)) : List Expr → List Expr
  | [] => []
  | e :: rest =>
    if e.symbol? ∈ seen then firstOfEachName seen rest
    else e :: firstOfEachName (e.symbol? :: seen) rest

/-- The names that a statement binds, each as it is first bound. -/
def targets (s : Stmt) : List Expr := firstOfEachName [] s.boundNames

mutual

def size : Stmt → Nat
  | .bind target value => target.size + value.size + 1
  | .ret value | .declare value => value.size + 1
  | .procedure name parameters body => name.size + Expr.sizeAll parameters + sizeAll body + 1
  | .branch test whenTrue whenFalse => test.size + sizeAll whenTrue + sizeAll whenFalse + 1
  | .loop test body => test.size + sizeAll body + 1
  | .structDef _ _ body | .namespaceDef _ body => sizeAll body + 1
  | .typedef .. | .header .. => 1

def sizeAll : List Stmt → Nat
  | [] => 0
  | s :: rest => size s + sizeAll rest

end

def indentation (depth : Nat) : String := String.join (List.replicate depth "    ")

mutual

/-- A statement as lines of text, nested blocks indented by four blanks. -/
def renderAt (depth : Nat) : Stmt → String
  | .bind target value =>
    indentation depth ++ target.render ++ " = " ++ value.render ++ "\n"
  | .ret value => indentation depth ++ "return " ++ value.render ++ "\n"
  | .procedure name parameters body =>
    indentation depth ++ "procedure " ++ name.render ++ "(" ++
      ", ".intercalate (Expr.renderAll parameters) ++ ") \x7b\n" ++
    renderAllAt (depth + 1) body ++ indentation depth ++ "\x7d\n"
  | .branch test whenTrue whenFalse =>
    indentation depth ++ "if " ++ test.render ++ " \x7b\n" ++
    renderAllAt (depth + 1) whenTrue ++ indentation depth ++ "\x7d else \x7b\n" ++
    renderAllAt (depth + 1) whenFalse ++ indentation depth ++ "\x7d\n"
  | .loop test body =>
    indentation depth ++ "while " ++ test.render ++ " \x7b\n" ++
    renderAllAt (depth + 1) body ++ indentation depth ++ "\x7d\n"
  | .structDef name binders body =>
    indentation depth ++ "struct " ++ name ++ "<" ++ ", ".intercalate binders ++ "> \x7b\n" ++
    renderAllAt (depth + 1) body ++ indentation depth ++ "\x7d\n"
  | .typedef layout name => indentation depth ++ "typedef " ++ layout.render ++ " " ++ name ++ "\n"
  | .namespaceDef name body =>
    indentation depth ++ "namespace " ++ name ++ " \x7b\n" ++
    renderAllAt (depth + 1) body ++ indentation depth ++ "\x7d\n"
  | .header path true => indentation depth ++ "include <" ++ path ++ ">\n"
  | .header path false => indentation depth ++ "include \"" ++ path ++ "\"\n"
  | .declare value => indentation depth ++ "declare " ++ value.render ++ "\n"

def renderAllAt (depth : Nat) : List Stmt → String
  | [] => ""
  | s :: rest => renderAt depth s ++ renderAllAt depth rest

end

def render (s : Stmt) : String := renderAt 0 s

end Stmt

abbrev Module := List Stmt

namespace Module

def procedures (module : Module) : List Procedure := module.filterMap Stmt.procedure?

def findProcedure? (module : Module) (name : String) : Option Procedure :=
  module.procedures.find? fun procedure => procedure.symbol? = some name

def render (module : Module) : String := Stmt.renderAllAt 0 module

def bodyLines? (module : Module) (name : String) : Option (List String) :=
  (module.findProcedure? name).map fun procedure =>
    Text.lineTexts (Stmt.renderAllAt 0 procedure.body)

end Module
end DataParallel
