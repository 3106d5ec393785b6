import Namespacer.SourceFile

/-!
# The symbol index

The types that a project declares, by their bare names. The first file that
declares a name keeps it, names that differ only in letter case are the same
name, and a look-up ignores letter case where the exact spelling is unknown.

An index remembers the files it was built from, so that it can tell when a
file has been renamed or moved to another namespace since.
-/

namespace Namespacer

/-- What an index remembers of a file: its path, type name and namespace. -/
abbrev Fingerprint := Text × Text × Option Text

/-- The fingerprints of some files. -/
def fingerprints (files : List SourceFile) : List Fingerprint :=
  files.map fun file => (file.path.toText, file.typeName, file.namespaceName)

/-- An index of types. -/
structure SymbolIndex where
  /-- Bare names with their fully qualified names, in the order of
  registration. -/
  symbols : List (Text × Text) := []
  /-- The files that the index was built from. -/
  fingerprint : List Fingerprint := []
deriving Repr

/-- Two files that declare a type of the same name. -/
structure DuplicateType where
  name : Text
  kept : Text
  ignored : Text
  path : Text
deriving DecidableEq, Repr

namespace SymbolIndex

/-- Sets the qualified name of a bare name. A name that is there keeps its
place. -/
def put (name qualified : Text) : List (Text × Text) → List (Text × Text)
  | [] => [(name, qualified)]
  | (other, old) :: rest =>
    if other = name then (name, qualified) :: rest else (other, old) :: put name qualified rest

/-- The index of some pairs, without fingerprints. -/
def ofPairs (pairs : List (Text × Text)) : SymbolIndex :=
  { symbols := pairs.foldl (fun symbols (name, qualified) => put name qualified symbols) [] }

/-- The qualified name of the first symbol that has the name up to letter
case. -/
def lookupFolded? (symbols : List (Text × Text)) (name : Text) : Option Text :=
  (symbols.find? fun (other, _) => Text.lower other == Text.lower name).map (·.2)

/-- The qualified name of a bare name. -/
def lookup? (index : SymbolIndex) (name : Text) : Option Text :=
  (index.symbols.lookup name).filter (!·.isEmpty) <|> lookupFolded? index.symbols name

/-- Whether two lists hold the same fingerprints, order and repetition aside. -/
def sameFingerprints (a b : List Fingerprint) : Bool :=
  a.all b.contains && b.all a.contains

/-- Whether a file was renamed or moved to another namespace since the index
was built. -/
def isStale (index : SymbolIndex) (files : List SourceFile) : Bool :=
  !sameFingerprints (fingerprints files) index.fingerprint

/-- Registers the types of some files after the symbols that are known. -/
def register : List SourceFile → List (Text × Text) → List (Text × Text) × List DuplicateType
  | [], symbols => (symbols, [])
  | file :: files, symbols =>
    if file.isTemplate || file.properNamespace?.isNone then register files symbols
    else
      match lookupFolded? symbols file.typeName with
      | some kept =>
        let (symbols, duplicates) := register files symbols
        (symbols, ⟨file.typeName, kept, file.qualifiedName, file.path.toText⟩ :: duplicates)
      | none => register files (symbols ++ [(file.typeName, file.qualifiedName)])

/-- The index of some files, with the types that lost their name to an earlier
file. -/
def build (files : List SourceFile) : SymbolIndex × List DuplicateType :=
  let (symbols, duplicates) := register files []
  (⟨symbols, fingerprints files⟩, duplicates)

end SymbolIndex

end Namespacer
