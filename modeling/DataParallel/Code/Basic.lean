import DataParallel.Code.Term
import DataParallel.Layout.Template
import DataParallel.Stmt.Basic

/-! Emitted code and its text. Here it is settled which bind declares a name and which assigns to
it. -/

namespace DataParallel

inductive Code where
  /-- Declares a name without a value. -/
  | declare (layout : Layout) (name : String)
  /-- Declares a name with a value. -/
  | define (layout : Layout) (name : String) (value : Term)
  | assign (name : String) (value : Term)
  /-- Tells the reader that all kernels so far are done. -/
  | boundary
  | ret (value : Term)
  | procedure (binders : List Layout) (result : Layout) (name : String)
    (parameters : List (Layout × String)) (body : List Code)
  | branch (test : Term) (whenTrue whenFalse : List Code)
  | loop (test : Term) (body : List Code)
  | structDef (name : String) (binders : List String) (body : List Code)
  | typedef (layout : Layout) (name : String)
  | namespaceDef (name : String) (body : List Code)
  | header (path : String) (system : Bool)
deriving Repr, Inhabited

/-- How code is written: with which ink, and for which target. -/
structure Style where
  ink : Ink
  target : Target
deriving DecidableEq, Repr

namespace Style

def layout (style : Style) (layout : Layout) : String :=
  style.ink.paint .yellow (layout.spell style.target)

def word (style : Style) (text : String) : String := style.ink.paint .magenta text

def typed (style : Style) (layout : Layout) (name : String) : String :=
  style.layout layout ++ " " ++ name

/-- The line in front of what depends on type variables. -/
def templateLines (style : Style) (depth : Nat) (binders : List String) : String :=
  if binders.isEmpty then ""
  else Stmt.indentation depth ++ style.word "template" ++ "<" ++
    ", ".intercalate (binders.map fun v => style.word "typename" ++ " " ++ v) ++ ">\n"

end Style

namespace Code

mutual

/-- Code as lines of text, nested blocks indented by four blanks. -/
def renderAt (style : Style) (depth : Nat) : Code → String
  | .declare layout name => Stmt.indentation depth ++ style.typed layout name ++ ";\n"
  | .define layout name value =>
    Stmt.indentation depth ++ style.typed layout name ++ " = " ++ value.render style.ink ++ ";\n"
  | .assign name value =>
    Stmt.indentation depth ++ name ++ " = " ++ value.render style.ink ++ ";\n"
  | .boundary => Stmt.indentation depth ++ style.ink.paint .gray "// phase boundary" ++ "\n"
  | .ret value =>
    Stmt.indentation depth ++ style.word "return" ++ " " ++ value.render style.ink ++ ";\n"
  | .procedure binders result name parameters body =>
    style.templateLines depth (binders.map (Layout.spell style.target)) ++
    Stmt.indentation depth ++ style.layout result ++ " " ++ style.ink.paint .blue name ++ "(" ++
      ", ".intercalate (parameters.map fun p => style.typed p.1 p.2) ++ ") \x7b\n" ++
    renderAllAt style (depth + 1) body ++ Stmt.indentation depth ++ "\x7d\n"
  | .branch test whenTrue whenFalse =>
    Stmt.indentation depth ++ style.word "if" ++ " (" ++ test.render style.ink ++ ") \x7b\n" ++
    renderAllAt style (depth + 1) whenTrue ++
    Stmt.indentation depth ++ "\x7d " ++ style.word "else" ++ " \x7b\n" ++
    renderAllAt style (depth + 1) whenFalse ++ Stmt.indentation depth ++ "\x7d\n"
  | .loop test body =>
    Stmt.indentation depth ++ style.word "while" ++ " (" ++ test.render style.ink ++ ") \x7b\n" ++
    renderAllAt style (depth + 1) body ++ Stmt.indentation depth ++ "\x7d\n"
  | .structDef name binders body =>
    style.templateLines depth binders ++
    Stmt.indentation depth ++ style.word "struct" ++ " " ++ name ++ " \x7b\n" ++
    renderAllAt style (depth + 1) body ++ Stmt.indentation depth ++ "\x7d;\n"
  | .typedef layout name =>
    Stmt.indentation depth ++ style.word "typedef" ++ " " ++ style.typed layout name ++ ";\n"
  | .namespaceDef name body =>
    Stmt.indentation depth ++ style.word "namespace" ++ " " ++ name ++ " \x7b\n" ++
    renderAllAt style (depth + 1) body ++ Stmt.indentation depth ++ "\x7d\n"
  | .header path system =>
    Stmt.indentation depth ++ style.word "#include" ++ " " ++
      style.ink.paint .green (if system then "<" ++ path ++ ">" else "\"" ++ path ++ "\"") ++ "\n"

def renderAllAt (style : Style) (depth : Nat) : List Code → String
  | [] => ""
  | code :: rest => renderAt style depth code ++ renderAllAt style depth rest

end

/-- Groups of code with an empty line between them. -/
def render (style : Style) (groups : List (List Code)) : String :=
  "\n".intercalate (groups.map (renderAllAt style 0))

end Code
end DataParallel
