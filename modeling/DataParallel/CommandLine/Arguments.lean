import DataParallel.CommandLine.Options

/-! Reading a command line.

A value that stands in an argument of its own takes effect only when the next option or source is
read, so an unknown option behind it is reported first. -/

namespace DataParallel.Arguments

/-- What was read and has not taken effect yet. -/
inductive Pending where
  | nothing
  | sources (paths : List String)
  | setting (setting : Setting) (value : Option String)
deriving DecidableEq, Repr

structure State where
  options : Options
  /-- The settings made so far; none can be made twice. -/
  made : List Setting
  pending : Pending
  /-- Whether all that follows are sources. -/
  onlySources : Bool
deriving DecidableEq, Repr

def State.initial : State := ⟨.initial, [], .nothing, false⟩

/-- Why reading ends before the last argument. -/
inductive Stop where
  | usage (error : UsageError)
  | help
  | version
deriving DecidableEq, Repr

abbrev Reader (α : Type) := StateT State (Except Stop) α

def fail {α : Type} (error : UsageError) : Reader α := throw (.usage error)

def change (options : Options) (setting : Setting) (value : String) : Except UsageError Options :=
  match setting with
  | .entry => return { options with entry := value }
  | .target =>
    match Target.ofName? value with
    | some target => return { options with target }
    | none => throw (.unknownTarget value)
  | .form =>
    match Form.ofName? value with
    | some form => return { options with form }
    | none =>
      throw (if value = "" then .missingValue setting.title else .unknownForm value)
  | .output =>
    if value = "" then throw (.missingValue setting.title)
    else return { options with output := some value }

def make (setting : Setting) (value : String) : Reader Unit := do
  let state ← get
  if setting ∈ state.made then fail (.repeated setting.title)
  else
    match change state.options setting value with
    | .ok options => set { state with options, made := setting :: state.made }
    | .error error => fail error

def resolve : Reader Unit := do
  let state ← get
  set { state with pending := .nothing }
  match state.pending with
  | .nothing => return
  | .sources paths =>
    if "" ∈ paths then fail (.missingValue "[SOURCE_FILES]...")
    else modify fun state =>
      { state with options.sources := state.options.sources ++ paths }
  | .setting setting none => fail (.missingValue setting.title)
  | .setting setting (some value) => make setting value

def readSource (path : String) : Reader Unit := do
  match (← get).pending with
  | .sources paths => modify fun state => { state with pending := .sources (paths ++ [path]) }
  | _ =>
    resolve
    modify fun state => { state with pending := .sources [path] }

def readSetting (setting : Setting) (value : Option String) : Reader Unit := do
  resolve
  match value with
  | some value => make setting value
  | none => modify fun state => { state with pending := .setting setting none }

def readSwitch (switch : Switch) : Reader Unit := do
  resolve
  match switch with
  | .verbose => return
  | .help => throw .help
  | .version => throw .version

/-- Splits an option at the first equals sign. -/
def splitValue (text : List Char) : String × Option String :=
  let name := String.ofList (text.takeWhile (· ≠ '='))
  match text.dropWhile (· ≠ '=') with
  | [] => (name, none)
  | _ :: value => (name, some (String.ofList value))

def readLong (text : List Char) : Reader Unit :=
  let (name, value) := splitValue text
  match Setting.ofName? name, Switch.ofName? name, value with
  | some setting, _, value => readSetting setting value
  | none, some switch, none => readSwitch switch
  | none, some switch, some value => fail (.unneededValue value switch.title)
  | none, none, _ => fail (.unexpectedArgument ("--" ++ name))

/-- The value that stands directly behind a letter. -/
def attachedValue : List Char → Option String
  | [] => none
  | '=' :: value => some (String.ofList value)
  | value => some (String.ofList value)

/-- Reads what stands behind one dash: switches, and then possibly the letter of a setting. -/
def readLetters : List Char → Reader Unit
  | [] => return
  | letter :: rest =>
    match Switch.ofLetter? letter with
    | some switch => do
      readSwitch switch
      readLetters rest
    | none =>
      if letter = 'o' then readSetting .output (attachedValue rest)
      else fail (.unexpectedArgument (String.ofList ['-', letter]))

def readPlain (text : String) : Reader Unit := do
  match (← get).pending with
  | .setting setting none =>
    modify fun state => { state with pending := .setting setting (some text) }
  | _ => readSource text

def readArgument (text : String) : Reader Unit := do
  if (← get).onlySources then readSource text
  else match text.toList with
    | ['-', '-'] => modify fun state => { state with onlySources := true }
    | '-' :: '-' :: option => readLong option
    | ['-'] => readPlain text
    | '-' :: letters => readLetters letters
    | _ => readPlain text

def readAll (arguments : List String) : Reader Unit := do
  arguments.forM readArgument
  resolve

end Arguments

/-- What a command line asks for. -/
def Request.ofArguments (arguments : List String) : Except UsageError Request :=
  match (Arguments.readAll arguments).run Arguments.State.initial with
  | .ok (_, state) => .ok (.lower state.options)
  | .error .help => .ok .help
  | .error .version => .ok .version
  | .error (.usage error) => .error error

end DataParallel
