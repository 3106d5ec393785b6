import Namespacer.Autoload
import Namespacer.Json.Printer
import Namespacer.Text.Codes
import Namespacer.Workspace

/-!
# The manifest of a project

The manifest is a JSON object. Bringing it up to date sets the autoload map and
the language version that is required; all other members keep their values and
their places. A project without a manifest gets one.

The names of directories, the root namespace and the required version come from
outside and may hold surrogates, so all texts here are code points.
-/

namespace Namespacer

namespace Manifest

/-- The path of the manifest. -/
def path : Path := Path.ofText "composer.json"

/-- The key of the section that tells where types are found. -/
def autoloadKey : List Nat := Json.codes "autoload"

/-- The key of the autoload map in its section. -/
def mapKey : List Nat := Json.codes "psr-4"

/-- The key of the section that tells what is required. -/
def requireKey : List Nat := Json.codes "require"

/-- The key of the required language version. -/
def constraintKey : List Nat := Json.codes "php"

/-- The code points of the parts of a path. -/
def partsOf (path : Path) : List Codes := path.parts.map Json.codes

/-- The code point of the separator of namespaces. -/
def separator : Nat := namespaceSeparator.toNat

/-- The prefix of the root namespace. -/
def rootPrefix (root : Codes) : Codes :=
  Codes.trim (· == separator) (Codes.trim Codes.isBlank root) ++ [separator]

/-- The entry of the autoload map that covers a path with some parts. A path without parts has
none. -/
def covering? (root : Codes) : List Codes → Option (Codes × Codes)
  | [] => none
  | [_] => some (rootPrefix root, [])
  | directory :: _ => some (rootPrefix root ++ directory ++ [separator], directory ++ [47])

/-- Adds an entry in the order of the prefixes, unless its prefix is there. -/
def insert (entry : Codes × Codes) (map : List (Codes × Codes)) : List (Codes × Codes) :=
  if map.any (·.1 == entry.1) then map
  else insertSorted (fun a b => Codes.le a.1 b.1) entry map

/-- The autoload map that covers some paths, if all of them have parts. -/
def mapFor? (root : Codes) (paths : List (List Codes)) : Option (List (Codes × Codes)) :=
  (paths.mapM (covering? root)).map fun entries => entries.foldr insert []

/-- An autoload map as a JSON object. -/
def mapValue (map : List (Codes × Codes)) : Json :=
  .object (map.map fun (start, directory) => (start, .string directory))

/-- Sets a member of a section. A missing section is made. -/
def setIn (sectionKey key : List Nat) (value : Json) (members : List (List Nat × Json)) :
    Except Failure (List (List Nat × Json)) :=
  match (Json.get? sectionKey members).getD (.object []) with
  | .object inner => .ok (Json.put sectionKey (.object (Json.put key value inner)) members)
  | _ => .error .manifestSection

/-- The manifest brought up to date, and its autoload map. -/
def updated (manifest : Json) (root constraint : Codes) (paths : List (List Codes)) :
    Except Failure (Json × List (Codes × Codes)) :=
  match manifest with
  | .object members =>
    match mapFor? root paths with
    | none => .error .emptyPath
    | some map => do
      let members ← setIn autoloadKey mapKey (mapValue map) members
      let members ← setIn requireKey constraintKey (.string constraint) members
      pure (.object members, map)
  | _ => .error .manifestShape

/-- The code points of a manifest as it is written. -/
def printed (manifest : Json) : List Nat := manifest.print ++ [10]

end Manifest

namespace Job

/-- The manifest of the project; an empty object if there is none. -/
def readManifest : Job Json := do
  if (← disk).holdsFile Manifest.path then
    let text ← readUtf8 Manifest.path
    match Json.parse text with
    | .ok manifest => pure manifest
    | .error fault => throw (.manifestText text fault)
  else pure (.object [])

/-- Writes the manifest. The file is emptied before it is written. -/
def writeManifest (manifest : Json) : Job Unit := do
  writeBytes Manifest.path []
  match Encoding.utf8.encodeCodes (Manifest.printed manifest) with
  | .ok bytes => writeBytes Manifest.path bytes
  | .error fault => throw (.encoding fault)

/-- Brings the manifest up to date with files whose paths have the given parts. -/
def updateManifest (paths : List (List Codes)) (root constraint : Codes) :
    Job (Json × List (Codes × Codes)) := do
  let manifest ← readManifest
  match Manifest.updated manifest root constraint paths with
  | .error failure => throw failure
  | .ok (manifest, map) =>
    writeManifest manifest
    log (.autoloadUpdated map.length)
    pure (manifest, map)

/-- Installs the packages that the manifest asks for. What the installer itself does to the project
is not followed: the disk is taken to stay as it is, whatever the outcome. -/
def installPackages : Job Unit := do
  recordCall ["composer", "install"]
  match (← get).composer with
  | .missing => throw .installerMissing
  | .timeout => throw .installerTimeout
  | .exited 0 _ => pure ()
  | .exited code _ => throw (.installerFailed code)

end Job

end Namespacer
