import DataParallel.CommandLine.Arguments
import DataParallel.CommandLine.Session

/-! Whole runs of the command line in a folder: what they print, and the folder they leave. -/

namespace DataParallel

/-- A folder: what stands under each path below it. Paths are joined by single strokes. -/
structure Folder where
  entries : Table Entry

namespace Folder

def empty : Folder := ⟨∅⟩

def key (steps : List String) : String := "/".intercalate steps

/-- Whether a step of a path leads nowhere. -/
def isIdle (step : String) : Bool := step = "" || step = "."

def steps (path : String) : List String := path.splitOn "/"

/-- Adds all folders on a way, and `entry` at its end. -/
def addAlong (entry : Entry) (folder : Folder) (here : List String) : List String → Folder
  | [] => folder
  | [step] => ⟨folder.entries.insert (key (here ++ [step])) entry⟩
  | step :: rest =>
    addAlong entry ⟨folder.entries.insert (key (here ++ [step])) .folder⟩ (here ++ [step]) rest

def add (folder : Folder) (path : String) (entry : Entry) : Folder :=
  addAlong entry folder [] (steps path)

/-- Where a path has led. Outside of the folder there are only folders without entries. -/
inductive Place where
  | inside (steps : List String)
  | outside
deriving DecidableEq, Repr

/-- Where a path starts. -/
def Place.ofPath (path : String) : Place := if path.startsWith "/" then .outside else .inside []

def Place.parent : Place → Place
  | .inside [] | .outside => .outside
  | .inside (step :: rest) => .inside (step :: rest).dropLast

def Place.child : Place → String → Place
  | .inside steps, name => .inside (steps ++ [name])
  | .outside, _ => .outside

def entryAt (folder : Folder) : Place → Entry
  | .inside steps => (folder.entries.get? (key steps)).getD .missing
  | .outside => .missing

def isLongName (name : String) : Bool := 255 < name.utf8ByteSize

def isLongPath (path : String) : Bool := 4095 < path.utf8ByteSize

def lookAlong (folder : Folder) (place : Place) : List String → Entry
  | [] => .folder
  | step :: rest =>
    if isIdle step then lookAlong folder place rest
    else if step = ".." then lookAlong folder place.parent rest
    else
      match folder.entryAt (place.child step) with
      | .folder => lookAlong folder (place.child step) rest
      | entry => if rest.isEmpty then entry else .missing

def look (folder : Folder) (path : String) : Entry :=
  if isLongPath path then .missing else lookAlong folder (.ofPath path) (steps path)

def noSuchFile : Fault := ⟨2, "No such file or directory"⟩

def notAFolder : Fault := ⟨20, "Not a directory"⟩

def isAFolder : Fault := ⟨21, "Is a directory"⟩

def nameTooLong : Fault := ⟨36, "File name too long"⟩

/-- Puts a file at a place. Files outside of the folder are not kept. -/
def put (folder : Folder) (contents : ByteArray) : Place → Folder
  | .inside steps => ⟨folder.entries.insert (key steps) (.file contents)⟩
  | .outside => folder

def writeAlong (contents : ByteArray) (folder : Folder) (place : Place) :
    List String → Except Fault Folder
  | [] => throw isAFolder
  | step :: rest =>
    if isIdle step then writeAlong contents folder place rest
    else if step = ".." then writeAlong contents folder place.parent rest
    -- a name with strokes behind it can only be that of a folder
    else if !rest.isEmpty && rest.all (· = "") then throw isAFolder
    else if isLongName step then throw nameTooLong
    else
      match folder.entryAt (place.child step), rest with
      | .folder, rest => writeAlong contents folder (place.child step) rest
      | _, [] => return folder.put contents (place.child step)
      | .missing, _ => throw noSuchFile
      | _, _ => throw notAFolder

def write (folder : Folder) (path : String) (contents : ByteArray) : Except Fault Folder :=
  if isLongPath path then throw nameTooLong
  else writeAlong contents folder (.ofPath path) (steps path)

/-- What a run prints, and the code it ends with. -/
structure Outcome where
  code : Nat
  output : String
  messages : List String
deriving DecidableEq, Repr

/-- A command line that cannot be followed. It never has colours. -/
def Outcome.ofUsageError (error : UsageError) : Outcome :=
  ⟨2, "", [Session.alarm .plain error.message]⟩

def Outcome.ofTranscript (transcript : Transcript) : Outcome :=
  ⟨if transcript.failed then 1 else 0, transcript.output, transcript.messages⟩

/-- Lowers the source files and writes the result. -/
def lower (folder : Folder) (options : Options) (ink : Ink) : Outcome × Folder :=
  let sources := options.sources.map fun path => ⟨path, folder.look path⟩
  match Session.sourceError? sources with
  | some error => (.ofUsageError error, folder)
  | none =>
    let transcript := Session.run options ink sources
    match options.output with
    | none => (.ofTranscript transcript, folder)
    | some path =>
      match folder.write path transcript.output.toUTF8 with
      | .ok folder => (.ofTranscript { transcript with output := "" }, folder)
      | .error fault =>
        (⟨1, "", transcript.messages ++ [Session.unwritten ink path fault]⟩, folder)

def run (folder : Folder) (ink : Ink) (arguments : List String) : Outcome × Folder :=
  match Request.ofArguments arguments with
  | .error error => (.ofUsageError error, folder)
  | .ok .version => (⟨0, Session.versionText, []⟩, folder)
  | .ok .help => (⟨0, Session.helpText, []⟩, folder)
  | .ok (.lower options) => folder.lower options ink

end Folder
end DataParallel
