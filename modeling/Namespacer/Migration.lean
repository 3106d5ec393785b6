import Namespacer.Analysis
import Namespacer.Manifest
import Namespacer.Relocation
import Namespacer.Rendering

/-!
# Migrations

The two things that can be done with a project. `analyze` computes the
namespaces and imports of its files and changes nothing. `migrate` renames
folders and files, brings the manifest up to date, computes namespaces and
imports, and writes the files.
-/

namespace Namespacer

/-- Gives the last file at each path the imports that were found for that
path, later findings over earlier ones. -/
def assignImports : List (Path × List Text) → List SourceFile → List SourceFile
  | [], files => files
  | (path, imports) :: rest, files =>
    assignImports rest
      ((Registry.ofFiles files).updateLast path fun file => { file with imports }).files

namespace Job

/-- Indexes the types of some files. Types that lose their name are logged. -/
def buildIndex (files : List SourceFile) : Job SymbolIndex := do
  let (index, duplicates) := SymbolIndex.build files
  logAll (duplicates.map LogEvent.duplicateTypeName)
  pure index

/-- Fails if an index is older than the last rename. -/
def ensureFresh (index : SymbolIndex) (files : List SourceFile) : Job Unit :=
  if index.isStale files then throw .staleIndex else pure ()

/-- Finds the imports of a file. Fully qualified names are logged. -/
def resolveFile (tools : Tools) (index : SymbolIndex) (file : SourceFile) : Job SourceFile := do
  let tree := Tree.ofText tools file.contents
  logAll (LogEvent.reviews tree)
  pure { file with imports := analyzeTree tree file index }

/-- Finds the imports of files, one after another. -/
def resolveEach (tools : Tools) (index : SymbolIndex) : List SourceFile → Job (List SourceFile)
  | [] => pure []
  | file :: files => do
    let file ← resolveFile tools index file
    let files ← resolveEach tools index files
    pure (file :: files)

/-- Finds the imports of files in order. -/
def resolveInOrder (tools : Tools) (files : List SourceFile) (index : SymbolIndex) :
    Job (List SourceFile) := do
  ensureFresh index files
  resolveEach tools index files

/-- Finds the imports of files independently of each other, by a number of
workers. `arrange` puts the findings of the workers in the order in which they
come in. What the workers log is not seen. -/
def resolveAsCompleted (tools : Tools)
    (arrange : List (Path × List Text) → List (Path × List Text))
    (workers : Option Int) (files : List SourceFile) (index : SymbolIndex) :
    Job (List SourceFile) := do
  ensureFresh index files
  if files.isEmpty then pure files
  else if workers.any (· ≤ 0) then throw .noWorkers
  else
    let found := files.map fun file => (file.path, analyzeFile tools file index)
    pure (assignImports (arrange found) files)

/-- Finds the imports of files by workers whose findings come in in the order of
the files. -/
def resolveInParallel (tools : Tools) (workers : Option Int) (files : List SourceFile)
    (index : SymbolIndex) : Job (List SourceFile) :=
  resolveAsCompleted tools id workers files index

/-- Finds the imports of files in the way that some settings ask for. -/
def resolve (tools : Tools) (fast : Bool) (files : List SourceFile) (index : SymbolIndex) :
    Job (List SourceFile) :=
  if fast then resolveInParallel tools none files index else resolveInOrder tools files index

/-- Writes a file if rendering changes it. Says whether it was written. -/
def persistFile (tools : Tools) (encoding : Text) (file : SourceFile) : Job Bool := do
  if file.lacksOpenTag then log (.missingOpenTag file.path.toText)
  match file.render with
  | none => pure false
  | some contents =>
    if contents = file.contents then pure false
    else
      writeText tools file.path contents encoding
      pure true

/-- Writes the files that rendering changes, and counts them. -/
def persist (tools : Tools) (encoding : Text) : List SourceFile → Job Nat
  | [] => pure 0
  | file :: files => do
    let written ← persistFile tools encoding file
    let count ← persist tools encoding files
    pure (if written then count + 1 else count)

/-- Fails if the root namespace is empty. -/
def ensureUsable (settings : Settings) : Job Unit :=
  if settings.isUsable then pure () else throw .emptyNamespace

/-- Computes namespaces and imports without any change. -/
def analyze (tools : Tools) (settings : Settings) : Job (List SourceFile) := do
  ensureUsable settings
  let files ← loadProject tools settings
  let files := assignNamespaces files settings.rootNamespace
  resolve tools settings.fast files (← buildIndex files)

/-- Migrates the project. -/
def migrate (tools : Tools) (settings : Settings) : Job (List SourceFile) := do
  ensureUsable settings
  let folders ← renameFolders (← exclusion tools settings.exclude)
  log (.foldersRenamed folders.length)
  let loaded ← loadProject tools settings
  let (files, renames) ← (← liftM (renameFiles loaded)).outcome
  log (.filesRenamed renames.length files.length)
  let _ ← updateManifest (files.map fun file => Manifest.partsOf file.path)
    (Json.codes settings.rootNamespace) (Json.codes settings.phpConstraint)
  let files := applyReplacements settings.replacements files
  let files := assignNamespaces files settings.rootNamespace
  let files ← resolve tools settings.fast files (← buildIndex files)
  log (.filesWritten (← persist tools settings.encoding files))
  if settings.composerInstall then installPackages
  pure files

end Job

end Namespacer
