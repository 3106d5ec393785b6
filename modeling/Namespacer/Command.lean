import Namespacer.Migration

/-!
# Carrying out a command line

What a command line does in a workspace, what it prints, and the code with
which it ends: zero for success, one for an error that is told to the user or
for a failure, two for a command line that makes no sense.
-/

namespace Namespacer

/-- The line of a report for a file, and one for each of its imports. -/
def reportLines (file : SourceFile) : List Text :=
  let head := file.path.toText ++ "  " ++ file.namespaceName.getD []
  Text.dropEndWhile Text.isBlank head ::
    file.imports.map fun name => "  use ".toList ++ name ++ ";"

/-- The report on some files. -/
def importReport (files : List SourceFile) : Text := Text.join ['\n'] (files.flatMap reportLines)

/-- The line that ends a migration. -/
def summary (files : List SourceFile) : Text :=
  let imported := files.filter (!·.imports.isEmpty)
  "Migrated ".toList ++ Text.ofNat files.length ++ " files (" ++ Text.ofNat imported.length ++
    " with imports)."

/-- What a command line comes to. -/
structure Ending where
  code : Nat
  /-- What is printed. -/
  printed : Text := []
  /-- The failure that was not foreseen, if there was one. -/
  failure : Option Failure := none

namespace Job

/-- Ends with an error that is told to the user. -/
def endWith (line : Text) : Job Ending := do
  tell line
  pure { code := 1 }

/-- Ends with a message for an error. -/
def endWithError (message : Text) : Job Ending := endWith ("Error: ".toList ++ message)

/-- Ends with what is printed about some files. -/
def endWithFiles (shown : List SourceFile → Text) (files : List SourceFile) : Job Ending :=
  if files.isEmpty then endWith "No PHP files found."
  else pure { code := 0, printed := shown files ++ ['\n'] }

/-- Prints namespaces and imports. -/
def runImports (tools : Tools) (settings : Settings) : Job Ending := do
  endWithFiles importReport (← analyze tools settings)

/-- Migrates a project. A failure of the package manager is told to the user. -/
def runMigrate (tools : Tools) (settings : Settings) : Job Ending := do
  let outcome : Except Text (List SourceFile) ←
    tryCatch (do pure (.ok (← migrate tools settings))) fun
      | .installerMissing => pure (.error Failure.installerMissing.message)
      | .installerFailed code => pure (.error (Failure.installerFailed code).message)
      | failure => throw failure
  match outcome with
  | .ok files => endWithFiles summary files
  | .error message => endWithError message

end Job

namespace Invocation

/-- The settings of a command line with its replacements, or what is wrong with
them. -/
def checkedSettings (invocation : Invocation) : Except Text Settings := do
  let replacements ← invocation.replacements.mapM fun spec =>
    match Replacement.ofSpec? spec with
    | some replacement => .ok replacement
    | none => .error (Replacement.invalidMessage spec)
  let settings := { invocation.settings with replacements }
  if settings.isUsable then pure settings else throw emptyNamespaceMessage

/-- Carries out a command line. -/
def job (tools : Tools) (invocation : Invocation) : Job Ending :=
  match invocation.checkedSettings with
  | .error message => Job.endWithError message
  | .ok settings =>
    match invocation.action with
    | .imports => Job.runImports tools settings
    | .migrate => Job.runMigrate tools settings

/-- Carries out a command line in a workspace. -/
def run (tools : Tools) (invocation : Invocation) (workspace : Workspace) : Ending × Workspace :=
  match (invocation.job tools).run.run workspace with
  | (.ok ending, workspace) => (ending, workspace)
  | (.error failure, workspace) => ({ code := 1, failure }, workspace)

/-- What is shown to the user besides what is printed. -/
def shownText (invocation : Invocation) (workspace : Workspace) : Text :=
  workspace.shownText (LogLevel.ofName invocation.logLevel)

end Invocation

/-! ## Finding the directory to work on -/

/-- Where the segments of a path lead when links are resolved and everything
else is taken as it is written. `follow` resolves the target of a link. -/
def Disk.realFrom (disk : Disk) (follow : Disk.Place → List Text → Option Disk.Place) :
    Disk.Place → List Text → Option Disk.Place
  | here, [] => some here
  | here, name :: rest =>
    if !Path.isName name then disk.realFrom follow here rest
    else if name = "..".toList then disk.realFrom follow (disk.around.parent here) rest
    else
      let next := disk.around.child name here
      match disk.at? next with
      | some (.link target) =>
        let start := if target.head? = some '/' then disk.around.place [] else here
        match follow start (Text.splitOn '/' target) with
        | some there => disk.realFrom follow there rest
        | none => none
      | _ => disk.realFrom follow next rest

/-- Where the segments of a path lead. The number bounds the links within
links. -/
def Disk.real (disk : Disk) : Nat → Disk.Place → List Text → Option Disk.Place
  | 0, _, _ => none
  | links + 1, here, segments => disk.realFrom (disk.real links) here segments

/-- The directory of a project below that of a workspace. -/
structure Site where
  top : Workspace
  /-- Where the project is. -/
  location : Location

namespace Site

/-- The site that an argument of a command line names, if there is a directory.
It has to be below that of the workspace. -/
def find? (top : Workspace) (argument : Text) : Option Site := do
  let path := Path.ofText argument
  let inner ← if path.anchor = top.root.anchor then Location.below? top.root.names path.names
    else none
  match top.disk.real 41 (.inside []) inner with
  | some (.inside location) =>
    if top.disk.get? location = some .directory then some ⟨top, location⟩ else none
  | _ => none

/-- The workspace of a site. -/
def workspace (site : Site) : Workspace :=
  { site.top with
    root := { site.top.root with names := site.top.root.names ++ site.location }
    disk := .ofWhole (site.top.disk.around.home ++ site.location) site.top.disk.whole }

/-- The disk of the whole workspace when that of the site has changed. -/
def topDisk (site : Site) (disk : Disk) : Disk :=
  .ofWhole site.top.disk.around.home disk.whole

end Site

/-- The outcome of a command line in a workspace. -/
structure CommandOutcome where
  ending : Ending
  /-- What is shown to the user besides what is printed. -/
  shown : Text := []
  /-- The programs that were started. -/
  calls : List (List Text) := []
  /-- Where the command worked. -/
  location : Location := []
  /-- The disk of the workspace afterwards. -/
  disk : Disk

namespace CommandOutcome

/-- The outcome of a command line that makes no sense. -/
def ofFault (top : Workspace) (fault : UsageFault) : CommandOutcome :=
  { ending := { code := 2 }, shown := "Error: ".toList ++ fault.message ++ "\n", disk := top.disk }

end CommandOutcome

/-- Carries out the arguments of a command line in a workspace. -/
def runArguments (tools : Tools) (top : Workspace) (arguments : List Text) : CommandOutcome :=
  match tools.command arguments with
  | .error fault => .ofFault top fault
  | .ok invocation =>
    match Site.find? top invocation.root with
    | none => .ofFault top (.notDirectory invocation.root)
    | some site =>
      let (ending, workspace) := invocation.run tools site.workspace
      { ending
        shown := invocation.shownText workspace
        calls := workspace.calls
        location := site.location
        disk := site.topDisk workspace.disk }

end Namespacer
