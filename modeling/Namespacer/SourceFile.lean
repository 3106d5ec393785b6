import Namespacer.Path
import Namespacer.Syntax.Name

/-!
# Source files and their namespaces

A source file on its way through a migration: where it is, the type that it is
expected to declare, its contents, and the namespace and imports that it is
given. A namespace follows from the directories of a path below a root
namespace.
-/

namespace Namespacer

/-- A source file. -/
structure SourceFile where
  path : Path
  /-- The name of the type that the file declares. -/
  typeName : Text
  contents : Text
  namespaceName : Option Text := none
  imports : List Text := []
deriving DecidableEq, Repr

namespace SourceFile

/-- The file at a path, expected to declare a type named like the file. -/
def ofPath (path : Path) (contents : Text) : SourceFile :=
  { path, typeName := path.stem, contents }

/-- Whether a file is a template. Templates declare no type and have no
namespace. -/
def isTemplate (file : SourceFile) : Bool := file.path.suffix == ".phtml".toList

/-- The namespace of a file, if it has one that is not empty. -/
def properNamespace? (file : SourceFile) : Option Text := file.namespaceName.filter (!·.isEmpty)

/-- The fully qualified name of the type that a file declares. -/
def qualifiedName (file : SourceFile) : Text :=
  match file.properNamespace? with
  | some name => name ++ namespaceSeparator :: file.typeName
  | none => file.typeName

end SourceFile

/-- A namespace without blanks and separators at its ends. -/
def normalizeNamespace (name : Text) : Text :=
  let isSeparator := (· == namespaceSeparator)
  Text.dropEndWhile isSeparator ((Text.strip name).dropWhile isSeparator)

/-- The namespace of a path: the root namespace and one segment for each
directory. -/
def namespaceFor (path : Path) (root : Text) : Text :=
  let rootParts := (Text.splitOn namespaceSeparator (normalizeNamespace root)).filter (!·.isEmpty)
  Text.join [namespaceSeparator] (rootParts ++ path.parent.parts.filter Path.isName)

/-- Gives each file the namespace of its path. -/
def assignNamespaces (files : List SourceFile) (root : Text) : List SourceFile :=
  files.map fun file => { file with namespaceName := some (namespaceFor file.path root) }

end Namespacer
