import Namespacer.Sorting
import Namespacer.SourceFile

/-!
# Autoload maps

Which directory holds the types of which namespace. There is one prefix for
each top-level directory, and the bare root prefix for the files that lie
directly in the project.
-/

namespace Namespacer

/-- Namespace prefixes with the directories that hold their types. Prefixes
end in a separator, directories in a slash unless they are empty. -/
abbrev AutoloadMap := List (Text × Text)

namespace AutoloadMap

/-- The prefix of the root namespace. -/
def rootPrefix (root : Text) : Text := normalizeNamespace root ++ [namespaceSeparator]

/-- The entry that covers a path. A path without parts has none. -/
def covering? (root : Text) (path : Path) : Option (Text × Text) :=
  match path.parts with
  | [] => none
  | [_] => some (rootPrefix root, [])
  | directory :: _ =>
    some (rootPrefix root ++ directory ++ [namespaceSeparator], directory ++ ['/'])

/-- Adds an entry in the order of the prefixes, unless its prefix is there. -/
def insert (entry : Text × Text) (map : AutoloadMap) : AutoloadMap :=
  if map.any (·.1 == entry.1) then map
  else insertSorted (fun a b => Text.le a.1 b.1) entry map

/-- The map that covers some paths, if all of them have parts. -/
def ofPaths? (root : Text) (paths : List Path) : Option AutoloadMap :=
  (paths.mapM (covering? root)).map fun entries => entries.foldr insert []

end AutoloadMap

end Namespacer
