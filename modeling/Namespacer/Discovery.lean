import Namespacer.Workspace

/-!
# Finding the files of a project

The files to work on are found by a walk through the directories of a
project. Hidden directories, directories of tools and excluded directories are
not entered. A file is taken if it is not hidden, not excluded, of a known
type, and listed by the version control system; where there is no such
listing, it must not be ignored by the rules of the project.

Files that cannot be read are reported and left out.
-/

namespace Namespacer

/-- Directories that belong to tools. -/
def toolDirectories : List String :=
  ["node_modules", "vendor", ".git", ".hg", ".svn", ".idea", "build", "dist", "cache"]

/-- Whether a name is hidden. -/
def isHidden (name : Text) : Bool := name.head? == some '.'

/-- Whether a directory belongs to a tool. -/
def isToolDirectory (name : Text) : Bool := toolDirectories.any fun tool => tool.toList == name

/-- The path of a location. -/
def Location.toPath (location : Location) : Path := ⟨[], location⟩

/-- The text of a directory for patterns of paths. -/
def directoryText (location : Location) : Text := location.toPath.toText ++ ['/']

/-- Which files a search takes. -/
structure Selection where
  /-- Whether a path is excluded. Directories are given with a slash at their
  end. -/
  excludes : Text → Bool
  /-- Whether the project keeps a path under version control. -/
  keeps : Text → Bool
  /-- The suffixes of the files to take, in lower case. -/
  extensions : List Text

namespace Selection

/-- Whether a search enters a directory. -/
def enters (selection : Selection) (location : Location) : Bool :=
  let name := location.getLastD []
  !isToolDirectory name && !isHidden name && !selection.excludes (directoryText location)

/-- Whether a search takes a file. -/
def takes (selection : Selection) (location : Location) : Bool :=
  let path := location.toPath
  let suffix := Text.lower path.suffix
  !isHidden path.name && selection.keeps path.toText && !selection.excludes path.toText &&
    selection.extensions.contains suffix && (languageFor? suffix).isSome

/-- The files that a search takes below a directory. The first number bounds
the depth. -/
def search (selection : Selection) (disk : Disk) : Nat → Location → List Location
  | 0, _ => []
  | depth + 1, directory =>
    (disk.children directory).flatMap fun (name, entry) =>
      let location := directory ++ [name]
      match entry with
      | .file _ => if selection.takes location then [location] else []
      | .directory =>
        if selection.enters location then search selection disk depth location else []
      | .link _ => []

/-- The paths of the files that a search takes, in order. -/
def paths (selection : Selection) (disk : Disk) : List Path :=
  sortBy Path.le ((selection.search disk (disk.entries.length + 1) []).map Location.toPath)

end Selection

namespace Job

/-- The arguments for listing the files under version control. -/
def listFilesCall : List Text :=
  ["git", "ls-files", "--cached", "--others", "--exclude-standard"]

/-- The files under version control, if the version control system is in use
and gives a listing. -/
def versionedFiles : Job (Option (List Text)) := do
  if (← disk).holds (Path.ofText ".git") then
    recordCall listFilesCall
    match (← get).git with
    | .exited 0 printed => pure (some (Text.lines printed))
    | _ => pure none
  else pure none

/-- The lines of the ignore file of the project; there are none if it has no
such file. -/
def ignoreLines : Job (List Text) := do
  let path := Path.ofText ".gitignore"
  if (← disk).holdsFile path then pure (Text.lines (← readUtf8 path)) else pure []

/-- What the ignore file of the project ignores. -/
def projectRules (tools : Tools) : Job (Text → Bool) := do
  ignoreRules (tools.patterns (← ignoreLines))

/-- What patterns of paths exclude. -/
def exclusion (tools : Tools) (patterns : List Text) : Job (Text → Bool) :=
  ignoreRules (tools.patterns.excluding patterns)

/-- Which paths the project keeps under version control. -/
def keptPaths (tools : Tools) : Job (Text → Bool) := do
  match ← versionedFiles with
  | some listed => pure listed.contains
  | none =>
    let ignores ← projectRules tools
    pure fun path => !ignores path

/-- The files to work on. No suffixes stand for the default ones. -/
def discover (tools : Tools) (extensions excluded : List Text) : Job (List Path) := do
  let wanted := if extensions.isEmpty then defaultExtensions else extensions
  let keeps ← keptPaths tools
  let excludes ← exclusion tools excluded
  let selection : Selection := ⟨excludes, keeps, wanted.map Text.lower⟩
  pure (selection.paths (← disk))

/-- Tells the user that a file cannot be read. -/
def tellUnreadable (path : Path) (failure : Failure) : Job Unit :=
  tell ("Warning: failed to read ".toList ++ path.toText ++ ": " ++ failure.message)

/-- Reads a file, or tells the user that it cannot be read. An unknown encoding
is not the fault of the file. -/
def load? (tools : Tools) (encoding : Text) (path : Path) : Job (Option SourceFile) :=
  tryCatch (do pure (some (SourceFile.ofPath path (← readText tools path encoding)))) fun
    | .disk fault place target => do
      tellUnreadable path (.disk fault place target)
      pure none
    | .decoding fault => do
      tellUnreadable path (.decoding fault)
      pure none
    | failure => throw failure

/-- Reads files. Those that cannot be read are left out. -/
def loadAll (tools : Tools) (encoding : Text) : List Path → Job (List SourceFile)
  | [] => pure []
  | path :: paths => do
    let file? ← load? tools encoding path
    let files ← loadAll tools encoding paths
    pure (file?.toList ++ files)

/-- Finds and reads the files that some settings ask for. -/
def loadProject (tools : Tools) (settings : Settings) : Job (List SourceFile) := do
  loadAll tools settings.encoding (← discover tools settings.extensions settings.exclude)

end Job

end Namespacer
