import Namespacer.Text.Basic

/-!
# Paths

A path is an anchor (empty for a relative path) followed by names. Reading a
path drops empty segments, `.` segments and trailing slashes; `..` stays.
Paths are ordered by their lists of parts, so the files of a directory come
before a sibling whose name merely begins like the directory's.
-/

namespace Namespacer

/-- A path in its normal form. -/
structure Path where
  /-- `""`, `"/"` or `"//"`. -/
  anchor : Text := []
  /-- The segments after the anchor. None is empty or a single dot. -/
  names : List Text := []
deriving DecidableEq, Repr, Inhabited

namespace Path

/-- The anchor of a path text: two leading slashes are kept, any other number
counts as one. -/
def anchorOf : Text → Text
  | '/' :: '/' :: '/' :: _ => ['/']
  | '/' :: '/' :: _ => ['/', '/']
  | '/' :: _ => ['/']
  | _ => []

/-- Whether a segment of a path text becomes a name of the path. -/
def isName (segment : Text) : Bool := segment != [] && segment != ['.']

/-- Reads a path. -/
def ofText (text : Text) : Path := ⟨anchorOf text, (Text.splitOn '/' text).filter isName⟩

/-- The parts of a path: its anchor, if it has one, and its names. -/
def parts (path : Path) : List Text :=
  if path.anchor.isEmpty then path.names else path.anchor :: path.names

/-- The text of a path. The empty relative path is written as a dot. -/
def toText (path : Path) : Text :=
  match path.anchor, path.names with
  | [], [] => ['.']
  | anchor, names => anchor ++ Text.join ['/'] names

/-- The last name of a path; empty where there is none. -/
def name (path : Path) : Text := path.names.getLastD []

/-- The directory that holds a path. -/
def parent (path : Path) : Path := { path with names := path.names.dropLast }

/-- A path below a directory. An absolute path stays as it is. -/
def append (directory path : Path) : Path :=
  if path.anchor.isEmpty then { directory with names := directory.names ++ path.names }
  else path

/-- The path with one more name. -/
def child (directory : Path) (name : Text) : Path :=
  { directory with names := directory.names ++ [name] }

/-- The path with another last name. -/
def withName (path : Path) (name : Text) : Path := path.parent.child name

/-- Splits a name at its last dot. There is no split if that dot is the first
or the last character. -/
def splitSuffix (name : Text) : Text × Text :=
  let tail := (name.reverse.takeWhile (· != '.')).reverse
  let stem := name.take (name.length - tail.length - 1)
  if tail.isEmpty || stem.isEmpty || tail.length = name.length then (name, [])
  else (stem, '.' :: tail)

/-- The last name up to its suffix. -/
def stem (path : Path) : Text := (splitSuffix path.name).1

/-- The last name from its last dot on; empty where there is no suffix. -/
def suffix (path : Path) : Text := (splitSuffix path.name).2

/-- Order of lists of parts. -/
def leParts : List Text → List Text → Bool
  | [], _ => true
  | _ :: _, [] => false
  | a :: s, b :: t => if a = b then leParts s t else Text.le a b

/-- Order of paths. -/
def le (a b : Path) : Bool := leParts a.parts b.parts

end Path

end Namespacer
