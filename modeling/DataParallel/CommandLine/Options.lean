import DataParallel.Target

/-! What a command line asks for, and what can be wrong with it. -/

namespace DataParallel

/-- What is written for a unit. -/
inductive Form where
  /-- Code for the target. -/
  | code
  /-- The lowered module as text. -/
  | tree
deriving DecidableEq, Repr

namespace Form

def name : Form → String
  | .code => "cpp"
  | .tree => "ast"

def ofName? (text : String) : Option Form := [code, tree].find? (·.name = text)

end Form

structure Options where
  sources : List String
  entry : String
  target : Target
  form : Form
  /-- The file to write to instead of standard output. -/
  output : Option String
deriving DecidableEq, Repr

def Options.initial : Options := ⟨[], "entry", .cuda, .code, none⟩

inductive Setting where
  | entry
  | target
  | form
  | output
deriving DecidableEq, Repr

namespace Setting

def name : Setting → String
  | .entry => "entry"
  | .target => "target"
  | .form => "emit"
  | .output => "output"

/-- A setting as messages show it. -/
def title (setting : Setting) : String :=
  "--" ++ setting.name ++ " <" ++ setting.name.toUpper ++ ">"

def ofName? (text : String) : Option Setting :=
  [entry, target, form, output].find? (·.name = text)

end Setting

inductive Switch where
  /-- Log more; the log is not part of the result. -/
  | verbose
  | help
  | version
deriving DecidableEq, Repr

namespace Switch

def name : Switch → String
  | .verbose => "verbose"
  | .help => "help"
  | .version => "version"

/-- A switch as messages show it. One that may be repeated ends in dots. -/
def title : Switch → String
  | .verbose => "--verbose..."
  | switch => "--" ++ switch.name

def ofName? (text : String) : Option Switch := [verbose, help, version].find? (·.name = text)

def ofLetter? : Char → Option Switch
  | 'v' => some .verbose
  | 'h' => some .help
  | 'V' => some .version
  | _ => none

end Switch

inductive UsageError where
  | unexpectedArgument (argument : String)
  | missingValue (title : String)
  | unneededValue (value title : String)
  | repeated (title : String)
  | unknownTarget (value : String)
  | unknownForm (value : String)
  | noSources
  | missingSource (path : String)
  | notAFile (path : String)
deriving DecidableEq, Repr

def UsageError.message : UsageError → String
  | .unexpectedArgument argument => "unexpected argument '" ++ argument ++ "' found"
  | .missingValue title => "a value is required for '" ++ title ++ "' but none was supplied"
  | .unneededValue value title =>
    "unexpected value '" ++ value ++ "' for '" ++ title ++ "' found; no more were expected"
  | .repeated title => "the argument '" ++ title ++ "' cannot be used multiple times"
  | .unknownTarget value =>
    "invalid value '" ++ value ++ "' for '" ++ Setting.target.title ++
    "': Matching variant not found"
  | .unknownForm value => "invalid value '" ++ value ++ "' for '" ++ Setting.form.title ++ "'"
  | .noSources => "Missing source files!"
  | .missingSource path => "Source file '" ++ path ++ "' does not exist!"
  | .notAFile path => "Input path '" ++ path ++ "' is not a file!"

/-- What a command line asks for. -/
inductive Request where
  | lower (options : Options)
  | help
  | version
deriving DecidableEq, Repr

end DataParallel
