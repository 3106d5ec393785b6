import Namespacer.Events
import Namespacer.Failure
import Namespacer.Tools

/-!
# Workspaces and jobs

A workspace is a project directory with all that a migration can see and do
there: its disk, what starting a program brings about, and a record of what
was reported, started and changed. A job works in a workspace and returns a
value or fails; either way the workspace keeps what was done before.
-/

namespace Namespacer

/-- What starting a program brings about. -/
inductive ProgramOutcome where
  /-- There is no such program. -/
  | missing
  /-- The program does not come to an end in time. -/
  | timeout
  /-- The program ends with a code, having printed something. -/
  | exited (code : Int) (printed : Text)
deriving DecidableEq, Repr

/-- Something that a job reports. -/
inductive Notice where
  /-- An event for the log. -/
  | logged (event : LogEvent)
  /-- A line for the user. -/
  | told (line : Text)

/-- A change of the disk. -/
inductive Change where
  /-- The file at a path was written. -/
  | written (path : Path) (bytes : Bytes)
  /-- What was at a path was renamed. -/
  | renamed (oldPath newPath : Path)
deriving DecidableEq, Repr

/-- A project directory. -/
structure Workspace where
  /-- The path of the directory, as it is shown in messages. -/
  root : Path
  disk : Disk := {}
  /-- What starting the version control system brings about. -/
  git : ProgramOutcome := .missing
  /-- What starting the package manager brings about. -/
  composer : ProgramOutcome := .missing
  /-- What was reported, in order. -/
  notices : List Notice := []
  /-- The programs that were started, each with its arguments. -/
  calls : List (List Text) := []
  /-- The changes of the disk, in order. -/
  changes : List Change := []

namespace Workspace

/-- The events that were logged. -/
def events (workspace : Workspace) : List LogEvent :=
  workspace.notices.filterMap fun
    | .logged event => some event
    | .told _ => none

/-- The lines that the user was told. -/
def toldText (workspace : Workspace) : Text :=
  workspace.notices.flatMap fun
    | .logged _ => []
    | .told line => line ++ ['\n']

/-- All that is shown to a user who asked for log events from a level on. -/
def shownText (level : LogLevel) (workspace : Workspace) : Text :=
  workspace.notices.flatMap fun
    | .logged event => logText level [event]
    | .told line => line ++ ['\n']

/-- The workspace with a clean record. -/
def fresh (workspace : Workspace) : Workspace :=
  { workspace with notices := [], calls := [], changes := [] }

end Workspace

/-- A job in a workspace. The workspace survives a failure. -/
abbrev Job (α : Type) : Type := ExceptT Failure (StateM Workspace) α

namespace Job

/-- Reports something. -/
def report (notice : Notice) : Job Unit :=
  modify fun workspace => { workspace with notices := workspace.notices ++ [notice] }

/-- Logs an event. -/
def log (event : LogEvent) : Job Unit := report (.logged event)

/-- Logs events in order. -/
def logAll : List LogEvent → Job Unit
  | [] => pure ()
  | event :: events => do
    log event
    logAll events

/-- Tells the user a line. -/
def tell (line : Text) : Job Unit := report (.told line)

/-- Records that a program is started. -/
def recordCall (arguments : List Text) : Job Unit :=
  modify fun workspace => { workspace with calls := workspace.calls ++ [arguments] }

/-- The disk of the workspace. -/
def disk : Job Disk := return (← get).disk

/-- Fails because of a path. -/
def failAt {α : Type} (fault : DiskFault) (path : Path) : Job α := do
  throw (.disk fault ((← get).root.append path) none)

/-- Sets the disk and records the change. -/
def change (change : Change) (disk : Disk) : Job Unit :=
  modify fun workspace => { workspace with disk, changes := workspace.changes ++ [change] }

/-- The bytes of a file. -/
def readBytes (path : Path) : Job Bytes := do
  match (← disk).read path with
  | .ok bytes => pure bytes
  | .error fault => failAt fault path

/-- Writes a file. -/
def writeBytes (path : Path) (bytes : Bytes) : Job Unit := do
  match (← disk).write path bytes with
  | .ok disk => change (.written path bytes) disk
  | .error fault => failAt fault path

/-- Renames a file or a directory. -/
def rename (oldPath newPath : Path) : Job Unit := do
  match (← disk).rename oldPath newPath with
  | .ok disk => change (.renamed oldPath newPath) disk
  | .error fault =>
    let root := (← get).root
    throw (.disk fault (root.append oldPath) (some (root.append newPath)))

/-- The encoding with a name. -/
def codecNamed (tools : Tools) (name : Text) : Job Codec :=
  match tools.codec? name with
  | some codec => pure codec
  | none => throw (.unknownEncoding name)

/-- Reads bytes as text. No encoding is needed to read no bytes. -/
def decode (tools : Tools) (encoding : Text) (bytes : Bytes) : Job Text := do
  if bytes.isEmpty then pure []
  else
    match (← codecNamed tools encoding).decode bytes with
    | .ok text => pure text
    | .error fault => throw (.decoding fault)

/-- Writes a text as bytes. -/
def encode (tools : Tools) (encoding text : Text) : Job Bytes := do
  match (← codecNamed tools encoding).encode text with
  | .ok bytes => pure bytes
  | .error fault => throw (.encoding fault)

/-- The text of a file, line ends as they are. -/
def readText (tools : Tools) (path : Path) (encoding : Text) : Job Text := do
  decode tools encoding (← readBytes path)

/-- Writes the text of a file. Nothing is touched if the text cannot be
written in the encoding. -/
def writeText (tools : Tools) (path : Path) (text encoding : Text) : Job Unit := do
  writeBytes path (← encode tools encoding text)

/-- The text of a file in `utf8`, with line feeds for all line ends. -/
def readUtf8 (path : Path) : Job Text := do
  match Encoding.utf8.decode (← readBytes path) with
  | .ok text => pure (Text.unifyNewlines text)
  | .error fault => throw (.decoding fault)

/-- Reads patterns of paths, or fails. -/
def ignoreRules {α : Type} (rules : Except IgnoreFault α) : Job α :=
  match rules with
  | .ok rules => pure rules
  | .error fault => throw (.ignoreRule fault)

end Job

end Namespacer
