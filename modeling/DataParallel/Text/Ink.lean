/-! Terminal colours. Every printer takes the ink it writes with; plain ink writes the text alone.
-/

namespace DataParallel

inductive Ink where
  | plain
  | colored
deriving DecidableEq, Repr

inductive Shade where
  | alarm
  | green
  | yellow
  | blue
  | magenta
  | gray
deriving DecidableEq, Repr

/-- The graphic rendition codes of a shade. An alarm is bold red. -/
def Shade.codes : Shade → String
  | .alarm => "1;31"
  | .green => "32"
  | .yellow => "33"
  | .blue => "34"
  | .magenta => "35"
  | .gray => "90"

def Ink.reset : String := "\x1b[0m"

def Shade.start (shade : Shade) : String := "\x1b[" ++ shade.codes ++ "m"

/-- Starts a shade again wherever the text itself ends all colours. -/
def Ink.restart (start : List Char) : List Char → List Char
  | [] => []
  | '\x1b' :: '[' :: '0' :: 'm' :: cs => '\x1b' :: '[' :: '0' :: 'm' :: (start ++ restart start cs)
  | c :: cs => c :: restart start cs

/-- Colours a text; an empty text still gets its escapes. -/
def Ink.paint (ink : Ink) (shade : Shade) (text : String) : String :=
  match ink with
  | .plain => text
  | .colored =>
    shade.start ++ String.ofList (restart shade.start.toList text.toList) ++ Ink.reset

@[simp] theorem Ink.paint_plain (shade : Shade) (text : String) :
    Ink.plain.paint shade text = text := rfl

/-- Whether an environment variable says yes. -/
def Ink.isYes (value : Option String) : Option Bool := value.map (· ≠ "0")

/-- The ink for standard output, as three environment variables and the terminal have it. -/
def Ink.choose (force noColor color : Option String) (isTerminal : Bool) : Ink :=
  let isColored :=
    if isYes force = some true then true
    else if (isYes noColor).isSome then false
    else (isYes color).getD true && isTerminal
  if isColored then .colored else .plain

end DataParallel
