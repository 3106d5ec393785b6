import Namespacer.Command
import Namespacer.StandardTools

/-!
# The program

Reads a project directory into memory, carries the command line out there, and
repeats the changes on the directory itself. The program starts no other
programs: the version control system and the package manager count as
missing. Links are left alone and lead nowhere.
-/

namespace Namespacer.Program

/-- The path of a location in a directory. -/
def pathIn (root : String) (location : Location) : String :=
  String.ofList (Text.join ['/'] (root.toList :: location))

/-- Reads the entries in a directory and below it. -/
partial def readEntries (root : String) (directory : Location) :
    IO (List (Location × Entry)) := do
  let handle ← IO.FS.realPath (pathIn root directory)
  let mut entries := []
  for entry in ← handle.readDir do
    let location := directory ++ [entry.fileName.toList]
    match (← entry.path.symlinkMetadata).type with
    | .dir => entries := entries ++ (location, .directory) :: (← readEntries root location)
    | .file =>
      let bytes ← IO.FS.readBinFile (pathIn root location)
      entries := entries ++ [(location, .file bytes.toList)]
    | _ => entries := entries ++ [(location, .link ['/', '\x00'])]
  pure entries

/-- The workspace of a directory, if there is one. -/
def readWorkspace? (root : String) : IO (Option Workspace) := do
  let handle ← IO.FS.realPath root
  if ← handle.isDir then
    let path := Path.ofText handle.toString.toList
    let entries ← readEntries root []
    pure (some { root := path, disk := { entries, around.home := path.names } })
  else pure none

/-- Repeats a change on a directory. -/
def repeatChange (root : String) : Change → IO Unit
  | .written path bytes => IO.FS.writeBinFile (pathIn root path.names) ⟨bytes.toArray⟩
  | .renamed oldPath newPath =>
    IO.FS.rename (pathIn root oldPath.names) (pathIn root newPath.names)

/-- Tells the user what is wrong with a command line. -/
def refuse (fault : UsageFault) : IO UInt32 := do
  IO.eprintln (String.ofList ("Error: ".toList ++ fault.message))
  pure 2

/-- Carries out a command line. -/
def run (arguments : List String) : IO UInt32 := do
  match Tools.standard.command (arguments.map String.toList) with
  | .error fault => refuse fault
  | .ok invocation =>
    let root := String.ofList invocation.root
    match ← try readWorkspace? root catch _ => pure none with
    | none => refuse (.notDirectory invocation.root)
    | some workspace =>
      let (ending, workspace) := invocation.run Tools.standard workspace
      for change in workspace.changes do
        repeatChange root change
      IO.eprint (String.ofList (invocation.shownText workspace))
      if let some failure := ending.failure then
        IO.eprintln (String.ofList failure.message)
      IO.print (String.ofList ending.printed)
      pure (UInt32.ofNat ending.code)

end Namespacer.Program

/-- The program. -/
def main (arguments : List String) : IO UInt32 := Namespacer.Program.run arguments
