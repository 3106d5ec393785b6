import Namespacer.Discovery
import Namespacer.Renaming

/-!
# Renaming folders and files on disk

Folders are renamed to PascalCase from the root down. Folders that a search
for files does not enter keep their names, and so does everything below them.
Files are renamed together with the types that they declare, and the contents
of all files follow. Nothing is renamed onto something else that is there.
-/

namespace Namespacer

/-- A folder before and after it was renamed. -/
structure FolderRename where
  old : Location
  new : Location
deriving DecidableEq, Repr

/-- Whether a folder is left alone, with everything below it. -/
def leavesFolder (excludes : Text → Bool) (location : Location) : Bool :=
  let name := location.getLastD []
  isHidden name || isToolDirectory name || excludes (directoryText location)

/-- Whether there is something else at a path than what is at a place. -/
def Disk.holdsOther (disk : Disk) (path : Path) (place : Place) : Bool :=
  match disk.find? path with
  | some (other, _) => other != place
  | none => false

namespace Job

/-- Renames a folder, if it has to be renamed and its new name is free. Gives
the location of the folder afterwards. -/
def renameFolder (directory : Location) (name : Text) : Job (Location × List FolderRename) := do
  let old := directory ++ [name]
  let newName := pascalCase name
  let new := directory ++ [newName]
  if newName.isEmpty || newName == name then pure (old, [])
  else if (← disk).holdsOther new.toPath (.inside old) then
    log (.renameTargetExists old.toPath.toText newName)
    pure (old, [])
  else
    rename old.toPath new.toPath
    pure (new, [⟨old, new⟩])

/-- Renames those of the named folders in a directory that are not left alone.
Gives the folders to go on with, and the renames. -/
def renameNamed (excludes : Text → Bool) (directory : Location) :
    List Text → Job (List Location × List FolderRename)
  | [] => pure ([], [])
  | name :: names => do
    if leavesFolder excludes (directory ++ [name]) then renameNamed excludes directory names
    else
      let (folder, renames) ← renameFolder directory name
      let (folders, others) ← renameNamed excludes directory names
      pure (folder :: folders, renames ++ others)

/-- The names of the folders in a directory. -/
def folderNames (directory : Location) : Job (List Text) := do
  pure <| ((← disk).children directory).filterMap fun (name, entry) =>
    if entry = .directory then some name else none

/-- Renames folders below the directories of a stack. The number bounds the
directories that are visited. -/
def renameBelow (excludes : Text → Bool) : Nat → List Location → Job (List FolderRename)
  | 0, _ => pure []
  | _ + 1, [] => pure []
  | count + 1, directory :: pending => do
    let (folders, renames) ← renameNamed excludes directory (← folderNames directory)
    let others ← renameBelow excludes count (folders.reverse ++ pending)
    pure (renames ++ others)

/-- Renames all folders of the project. -/
def renameFolders (excludes : Text → Bool) : Job (List FolderRename) := do
  renameBelow excludes ((← disk).entries.length + 1) [[]]

/-- Renames a file on disk. Says whether it was renamed; it is not if there is
something else in its place. -/
def renameFile (plan : FileRename) : Job Bool := do
  let disk ← disk
  if disk.holds plan.newPath then
    match disk.status plan.oldPath with
    | .error fault => failAt fault plan.oldPath
    | .ok place =>
      if disk.holdsOther plan.newPath place then
        log (.renameTargetExists plan.oldPath.toText plan.newPath.toText)
        pure false
      else
        rename plan.oldPath plan.newPath
        pure true
  else
    rename plan.oldPath plan.newPath
    pure true

end Job

/-- A registry of files under their paths from before any was renamed. -/
abbrev Registry := List (Path × SourceFile)

namespace Registry

/-- The registry of some files. -/
def ofFiles (files : List SourceFile) : Registry := files.map fun file => (file.path, file)

/-- The files of a registry. -/
def files (registry : Registry) : List SourceFile := registry.map (·.2)

/-- Changes the last file that was at a path. -/
def updateLast (path : Path) (change : SourceFile → SourceFile) : Registry → Registry
  | [] => []
  | (other, file) :: rest =>
    if other = path ∧ rest.all (·.1 != path) then (other, change file) :: rest
    else (other, file) :: updateLast path change rest

/-- Gives the file of a plan its new path and type name. -/
def renamed (plan : FileRename) (registry : Registry) : Registry :=
  updateLast plan.oldPath
    (fun file => { file with path := plan.newPath, typeName := plan.newName }) registry

end Registry

/-- How far the renaming of files has come. -/
structure RenameRun where
  files : List SourceFile
  /-- The renames that were carried out. -/
  done : List FileRename
  /-- Why it stopped before the end, if it did. -/
  failure : Option Failure

/-- Carries rename plans out, one after another, up to the first failure. -/
def carryOut : List FileRename → Registry → StateM Workspace RenameRun
  | [], registry => pure ⟨registry.files, [], none⟩
  | plan :: plans, registry => do
    match ← (Job.renameFile plan).run with
    | .error failure => pure ⟨registry.files, [], some failure⟩
    | .ok false => carryOut plans registry
    | .ok true =>
      let run ← carryOut plans (registry.renamed plan)
      pure { run with done := plan :: run.done }

/-- Carries renames into the contents of files. -/
def carryIntoContents (renames : List FileRename) (files : List SourceFile) :
    Except TemplateFault (List SourceFile) :=
  let rules := renames.flatMap FileRename.rules
  files.mapM fun file => do
    pure { file with contents := ← RenameRule.applyAll rules file.contents }

/-- Renames files on disk and carries the renames into the contents of all
files. What was done before a failure stays done. -/
def renameFiles (files : List SourceFile) : StateM Workspace RenameRun := do
  let run ← carryOut (FileRename.plan files) (Registry.ofFiles files)
  match run.failure with
  | some _ => pure run
  | none =>
    match carryIntoContents run.done run.files with
    | .ok files => pure { run with files }
    | .error fault => pure { run with failure := some (.template fault) }

/-- The outcome of a run as that of a job. -/
def RenameRun.outcome (run : RenameRun) : Job (List SourceFile × List FileRename) :=
  match run.failure with
  | some failure => throw failure
  | none => pure (run.files, run.done)

end Namespacer
