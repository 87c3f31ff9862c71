import DataParallel.Code.Emission
import DataParallel.CommandLine.Options
import DataParallel.Lowering.Lowered
import DataParallel.Reading.Units

/-! A run over source files. Every unit is lowered on its own; what is wrong with one does not keep
the others from being written. -/

namespace DataParallel

/-- What the system answers when a file cannot be read or written. -/
structure Fault where
  code : Nat
  text : String
deriving DecidableEq, Repr

def Fault.message (fault : Fault) : String :=
  fault.text ++ " (os error " ++ toString fault.code ++ ")"

/-- What stands at a path. -/
inductive Entry where
  | missing
  | folder
  | file (contents : ByteArray)
  | unreadable (fault : Fault)

/-- A source file with its path. -/
structure SourceFile where
  path : String
  entry : Entry

/-- What a run has to say. -/
structure Transcript where
  output : String
  messages : List String
  failed : Bool
deriving DecidableEq, Repr

namespace Session

def alarm (ink : Ink) (message : String) : String := ink.paint .alarm "error:" ++ " " ++ message

/-- The messages about a text that cannot be read as a unit: what is wrong, where, and the line. -/
def syntaxMessages (ink : Ink) (path : String) (text : List Char) (error : SyntaxError) :
    List String :=
  let place := do
    let row ← Source.row? text error.span.start
    let column ← Source.column? text error.span.start
    let line ← Source.highlight? ink text error.span
    return (path ++ ":" ++ toString row ++ ":" ++ toString column, [line])
  let (place, excerpt) := place.getD (path, [])
  alarm ink (error.message ++ " (" ++ place ++ ")") :: excerpt

/-- The text that is written for a lowered module. -/
def form (options : Options) (ink : Ink) (module : Module) : Except LoweringError String :=
  match options.form with
  | .tree => return module.render
  -- a file gets no colours
  | .code => module.print ⟨if options.output.isSome then .plain else ink, options.target⟩

/-- What is written for a source text, or the messages about it. -/
def lowerText (options : Options) (ink : Ink) (path : String) (text : List Char) :
    Except (List String) String :=
  match SourceUnit.ofText? text with
  | .error error => throw (syntaxMessages ink path text error)
  | .ok unit =>
    match unit.module.lower unit.registry options.entry >>= fun lowered =>
        form options ink lowered.module with
    | .ok result => return result
    | .error error => throw [alarm ink (error.message ++ " (" ++ path ++ ")")]

/-- What is written for a source file, or the messages about it. -/
def lowerFile (options : Options) (ink : Ink) (source : SourceFile) :
    Except (List String) String :=
  let unread (reason : String) : Except (List String) String :=
    throw [alarm ink ("failed to read '" ++ source.path ++ "': " ++ reason)]
  match source.entry with
  | .file contents =>
    match String.fromUTF8? contents with
    | some text => lowerText options ink source.path text.toList
    | none => unread "stream did not contain valid UTF-8"
  | .unreadable fault => unread fault.message
  | .missing => unread (Fault.message ⟨2, "No such file or directory"⟩)
  | .folder => unread (Fault.message ⟨21, "Is a directory"⟩)

/-- Takes what one file gives into a transcript. -/
def append (transcript : Transcript) : Except (List String) String → Transcript
  | .ok text => { transcript with output := transcript.output ++ text }
  | .error messages =>
    { transcript with messages := transcript.messages ++ messages, failed := true }

def run (options : Options) (ink : Ink) (sources : List SourceFile) : Transcript :=
  sources.foldl (fun transcript source => append transcript (lowerFile options ink source))
    ⟨"", [], false⟩

/-- What is wrong with the sources: there is none, or one of them is no file. -/
def sourceError? (sources : List SourceFile) : Option UsageError :=
  if sources.isEmpty then some .noSources
  else sources.findSome? fun source =>
    match source.entry with
    | .missing => some (.missingSource source.path)
    | .folder => some (.notAFile source.path)
    | .file _ | .unreadable _ => none

def unwritten (ink : Ink) (path : String) (fault : Fault) : String :=
  alarm ink ("failed to write '" ++ path ++ "': " ++ fault.message)

def versionText : String := "nestc 0.1.0\n"

def helpText : String :=
  "Nested data-parallel lowering compiler\n\n" ++
  "Usage: nestc [OPTIONS] [SOURCE_FILES]...\n\n" ++
  "Arguments:\n" ++
  "  [SOURCE_FILES]...  \n\n" ++
  "Options:\n" ++
  "      --entry <ENTRY>    Procedure the host calls into [default: entry]\n" ++
  "      --target <TARGET>  Runtime the generated code is compiled against (cuda, omp, tbb, cpp) " ++
  "[default: cuda]\n" ++
  "      --emit <EMIT>      [default: cpp] [possible values: cpp, ast]\n" ++
  "  -o, --output <OUTPUT>  Write the output here instead of stdout\n" ++
  "  -v, --verbose...       Log more (-v debug, -vv trace)\n" ++
  "  -h, --help             Print help\n" ++
  "  -V, --version          Print version\n"

end Session
end DataParallel
