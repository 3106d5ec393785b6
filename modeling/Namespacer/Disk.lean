import Namespacer.Path
import Namespacer.Sorting
import Namespacer.Text.Encoding

/-!
# Disks

The files, directories and links below a directory, and what surrounds it. A
disk is a list of entries with their locations; the directory itself has the
empty location and no entry. A path leads to a place by a walk that follows
links, and links may lead out of the directory and back into it.
-/

namespace Namespacer

/-- Where an entry is: the names on the way to it. -/
abbrev Location := List Text

namespace Location

/-- The rest of a location that lies below another one. -/
def below? : (above location : Location) → Option Location
  | [], location => some location
  | _ :: _, [] => none
  | name :: above, other :: location => if name = other then below? above location else none

/-- The rest of a location that lies below another one and is not that one. -/
def inside? (above location : Location) : Option Location :=
  (below? above location).filter (!·.isEmpty)

/-- Where a location is after the entry at `old` has moved to `new`. -/
def moved (old new location : Location) : Location :=
  match below? old location with
  | some rest => new ++ rest
  | none => location

end Location

/-- What is at a location. -/
inductive Entry where
  | file (bytes : Bytes)
  | directory
  /-- A link, with the path that it stands for. -/
  | link (target : Text)
deriving DecidableEq, Repr

/-- Why an operation on a disk fails. -/
inductive DiskFault where
  | notFound
  | notDirectory
  | isDirectory
  | notEmpty
  /-- A directory would move into itself. -/
  | insideItself
  | tooManyLinks
deriving DecidableEq, Repr

/-- The number and the words for a fault. -/
def DiskFault.message : DiskFault → Text
  | notFound => "[Errno 2] No such file or directory"
  | notDirectory => "[Errno 20] Not a directory"
  | isDirectory => "[Errno 21] Is a directory"
  | insideItself => "[Errno 22] Invalid argument"
  | notEmpty => "[Errno 39] Directory not empty"
  | tooManyLinks => "[Errno 40] Too many levels of symbolic links"

/-- A place in the file system, as it is seen from a directory. -/
inductive Disk.Place where
  /-- A place at or below the directory. -/
  | inside (location : Location)
  /-- Any other one, with its location from the top of the file system on. -/
  | outside (location : Location)
deriving DecidableEq, Repr

/-- Where a directory is in the file system, and the entries that are not below
it. -/
structure Surroundings where
  /-- The location of the directory from the top on. -/
  home : Location := []
  /-- The other entries, with their locations from the top on. -/
  entries : List (Location × Entry) := []
deriving DecidableEq, Repr

namespace Surroundings

/-- The entry at a location from the top on that is not below the directory.
The directory is in directories up to the top. -/
def get? (around : Surroundings) (location : Location) : Option Entry :=
  if (Location.below? location around.home).isSome then some .directory
  else around.entries.lookup location

/-- The surroundings with another entry at a location. -/
def set (around : Surroundings) (location : Location) (entry : Entry) : Surroundings :=
  { around with
    entries := (around.entries.filter fun entry => entry.1 != location) ++ [(location, entry)] }

/-- The place at a location from the top on. -/
def place (around : Surroundings) (location : Location) : Disk.Place :=
  match Location.below? around.home location with
  | some rest => .inside rest
  | none => .outside location

/-- The place of a name in a directory. -/
def child (around : Surroundings) (name : Text) : Disk.Place → Disk.Place
  | .inside location => .inside (location ++ [name])
  | .outside location => around.place (location ++ [name])

/-- The directory that a place is in. The top is in itself. -/
def parent (around : Surroundings) : Disk.Place → Disk.Place
  | .inside location =>
    if location.isEmpty then around.place around.home.dropLast else .inside location.dropLast
  | .outside location => .outside location.dropLast

/-- The location of a place from the top on. -/
def fromTop (around : Surroundings) : Disk.Place → Location
  | .inside location => around.home ++ location
  | .outside location => location

end Surroundings

/-- The entries below a directory, and its surroundings. -/
structure Disk where
  entries : List (Location × Entry) := []
  around : Surroundings := {}
deriving DecidableEq, Repr

namespace Disk

/-- The entry at a location. -/
def get? (disk : Disk) (location : Location) : Option Entry :=
  if location.isEmpty then some .directory else disk.entries.lookup location

/-- The entry at a place. -/
def at? (disk : Disk) : Place → Option Entry
  | .inside location => disk.get? location
  | .outside location => disk.around.get? location

/-- The disk without the entry at a location. -/
def erase (disk : Disk) (location : Location) : Disk :=
  { disk with entries := disk.entries.filter fun entry => entry.1 != location }

/-- The disk with another entry at a location. -/
def set (disk : Disk) (location : Location) (entry : Entry) : Disk :=
  { disk with entries := (disk.erase location).entries ++ [(location, entry)] }

/-- The disk with another entry at a place. -/
def setAt (disk : Disk) (entry : Entry) : Place → Disk
  | .inside location => disk.set location entry
  | .outside location => { disk with around := disk.around.set location entry }

/-- The names in a directory with their entries, sorted by name. -/
def children (disk : Disk) (directory : Location) : List (Text × Entry) :=
  sortBy (fun a b => Text.le a.1 b.1) <|
    disk.entries.filterMap fun (location, entry) =>
      match Location.below? directory location with
      | some [name] => some (name, entry)
      | _ => none

/-! ## Walks -/

/-- Walks from a directory along the segments of a path. `follow` takes over
where a link is followed: it is given the directory that the path of the link
begins in, which is the top if this path is absolute, and the segments from
there on. A link in the last place is followed if `followsLast` says so. The
place at the end of the walk may be free. -/
def walkFrom (disk : Disk) (followsLast : Bool)
    (follow : Place → List Text → Except DiskFault Place) :
    Place → List Text → Except DiskFault Place
  | here, [] => .ok here
  | here, name :: rest =>
    if !Path.isName name then walkFrom disk followsLast follow here rest
    else if name = "..".toList then
      walkFrom disk followsLast follow (disk.around.parent here) rest
    else
      let next := disk.around.child name here
      match disk.at? next with
      | none => if rest.isEmpty then .ok next else .error .notFound
      | some .directory => walkFrom disk followsLast follow next rest
      | some (.file _) => if rest.isEmpty then .ok next else .error .notDirectory
      | some (.link target) =>
        if rest.isEmpty && !followsLast then .ok next
        else
          let start := if target.head? = some '/' then disk.around.place [] else here
          follow start (Text.splitOn '/' target ++ rest)

/-- Walks along segments. The number bounds the links that are followed. -/
def walk (disk : Disk) (followsLast : Bool) :
    Nat → Place → List Text → Except DiskFault Place
  | 0, _, _ => .error .tooManyLinks
  | links + 1, here, segments =>
    disk.walkFrom followsLast (disk.walk followsLast links) here segments

/-- The place that a path leads to. -/
def locate (disk : Disk) (followsLast : Bool) (path : Path) : Except DiskFault Place :=
  let start := if path.anchor.isEmpty then .inside [] else disk.around.place []
  disk.walk followsLast 41 start path.names

/-! ## Questions -/

/-- The place and the entry at the end of a path, links followed. -/
def find? (disk : Disk) (path : Path) : Option (Place × Entry) :=
  match disk.locate true path with
  | .ok place => (disk.at? place).map fun entry => (place, entry)
  | .error _ => none

/-- Whether there is something at the end of a path. -/
def holds (disk : Disk) (path : Path) : Bool := (disk.find? path).isSome

/-- Whether there is a file at the end of a path. -/
def holdsFile (disk : Disk) (path : Path) : Bool :=
  match disk.find? path with
  | some (_, .file _) => true
  | _ => false

/-- The place of what is at the end of a path, or the reason why there is
nothing. -/
def status (disk : Disk) (path : Path) : Except DiskFault Place := do
  let place ← disk.locate true path
  if (disk.at? place).isSome then pure place else throw .notFound

/-! ## Changes -/

/-- The bytes of the file at the end of a path. -/
def read (disk : Disk) (path : Path) : Except DiskFault Bytes := do
  let place ← disk.locate true path
  match disk.at? place with
  | some (.file bytes) => pure bytes
  | some .directory => throw .isDirectory
  | _ => throw .notFound

/-- Writes the file at the end of a path. A new file is made where there is
none. -/
def write (disk : Disk) (path : Path) (bytes : Bytes) : Except DiskFault Disk := do
  let place ← disk.locate true path
  match disk.at? place with
  | some .directory => throw .isDirectory
  | _ => pure (disk.setAt (.file bytes) place)

/-- The disk after the entry at `old`, with everything below it, has moved to
the free location `new`. -/
def move (disk : Disk) (old new : Location) : Disk :=
  { disk with
    entries := disk.entries.map fun (location, entry) => (Location.moved old new location, entry) }

/-- Renames what is at a location. A file or a link takes the place of another
one, a directory that of an empty directory. -/
def renameAt (disk : Disk) (old new : Location) : Except DiskFault Disk :=
  match disk.get? old with
  | none => throw .notFound
  | some entry =>
    if old = new then pure disk
    else
      match entry, disk.get? new with
      | .directory, found =>
        if (Location.below? old new).isSome then throw .insideItself
        else
          match found with
          | none => pure (disk.move old new)
          | some .directory =>
            if (disk.children new).isEmpty then pure ((disk.erase new).move old new)
            else throw .notEmpty
          | some _ => throw .notDirectory
      | _, some .directory => throw .isDirectory
      | _, _ => pure ((disk.erase new).move old new)

/-- The whole file system, as the disk of its top. -/
def whole (disk : Disk) : Disk where
  entries :=
    ((List.range disk.around.home.length).map fun n =>
      (disk.around.home.take (n + 1), Entry.directory)) ++ disk.around.entries ++
        disk.entries.map fun (location, entry) => (disk.around.home ++ location, entry)

/-- The whole file system, as the disk of a directory in it. -/
def ofWhole (home : Location) (whole : Disk) : Disk where
  entries := whole.entries.filterMap fun (location, entry) =>
    (Location.inside? home location).map fun rest => (rest, entry)
  around.home := home
  around.entries := whole.entries.filter fun (location, _) =>
    (Location.below? home location).isNone && (Location.below? location home).isNone

/-- Renames what is at the end of a path; links in the last place are not
followed. The directory of the disk stays where it is, and so do those that it
is in. -/
def rename (disk : Disk) (oldPath newPath : Path) : Except DiskFault Disk := do
  let old ← disk.locate false oldPath
  let new ← disk.locate false newPath
  match old, new with
  | .inside old, .inside new => disk.renameAt old new
  | old, new =>
    let home := disk.around.home
    if (Location.below? (disk.around.fromTop old) home).isSome then throw .insideItself
    else
      let whole ← disk.whole.renameAt (disk.around.fromTop old) (disk.around.fromTop new)
      pure (ofWhole home whole)

/-- Removes a file or a link. -/
def remove (disk : Disk) (path : Path) : Except DiskFault Disk := do
  let place ← disk.locate false path
  match disk.at? place with
  | none => throw .notFound
  | some .directory => throw .isDirectory
  | _ =>
    pure (ofWhole disk.around.home (disk.whole.erase (disk.around.fromTop place)))

/-- The directories on the way to a location. -/
def parents (location : Location) : List Location :=
  (List.range location.length).map fun n => location.take n

/-- Puts an entry at the end of a path, with the directories that it needs. -/
def place (disk : Disk) (path : Path) (entry : Entry) : Disk :=
  let withParents := (parents path.names).foldl
    (fun disk location =>
      if (disk.get? location).isSome then disk else disk.set location .directory) disk
  match entry with
  | .file bytes => (withParents.write path bytes).toOption.getD withParents
  | .directory => if withParents.holds path then withParents else withParents.set path.names entry
  | .link _ => withParents.set path.names entry

/-! ## Listings -/

/-- The path of an entry in a listing. Those of directories end in a slash. -/
def listedPath : Location × Entry → Text
  | (location, .directory) => Text.join ['/'] location ++ ['/']
  | (location, _) => Text.join ['/'] location

/-- All entries with their paths, sorted. -/
def listing (disk : Disk) : List (Text × Entry) :=
  sortBy (fun a b => Text.le a.1 b.1) (disk.entries.map fun entry => (listedPath entry, entry.2))

end Disk

end Namespacer
