import Namespacer.Proofs.MigrationRuns
import Namespacer.StandardTools

/-!
# Files that are ignored

Folders are renamed before files are searched for, and both look at the patterns of the
project. So a pattern is matched against paths whose first folders have their new names and
whose last ones may have their old names still, and a file that a pattern matches where it is
need not be matched where it is going to be.

* `Selection.enters_of_mem_paths`: all folders above a file that is found are entered.
* `Disk.FolderMoves.get?_of_isHidden`: renaming folders leaves hidden entries of the root.
* `Job.keepsFile_of_isIgnored`: what a migration leaves as it is; `Job.not_forall_keepsFile`
  shows that not every ignored file is.
-/

namespace Namespacer

variable {tools : Tools}

/-! ## Searching -/

namespace Selection

/-- All folders between the directory of a search and a file that it finds are entered. -/
theorem enters_of_mem_search {selection : Selection} {disk : Disk} (tree : disk.IsTree)
    {depth : Nat} {directory location : Location}
    (h : location ∈ selection.search disk depth directory)
    {names rest : Location} (hnames : names ≠ []) (hrest : rest ≠ [])
    (heq : location = directory ++ names ++ rest) :
    selection.enters (directory ++ names) = true := by
  induction depth generalizing directory names with
  | zero => cases h
  | succ depth ih =>
    rw [search, List.mem_flatMap] at h
    obtain ⟨⟨name, entry⟩, -, h⟩ := h
    obtain ⟨first, names, rfl⟩ := List.exists_cons_of_ne_nil hnames
    cases entry with
    | file bytes =>
      simp only at h
      split at h
      · rw [List.mem_singleton, heq, List.append_assoc, List.append_cancel_left_eq,
          List.cons_append, List.cons.injEq, List.append_eq_nil_iff] at h
        exact absurd h.2.2 hrest
      · cases h
    | link target => cases h
    | directory =>
      simp only at h
      split at h
      · rename_i henters
        have hfirst : first = name := by
          obtain ⟨-, -, inner, below, hbelow, -⟩ := mem_search tree h
          rw [heq, List.append_assoc, List.append_assoc, List.append_cancel_left_eq,
            List.cons_append, List.singleton_append, List.cons.injEq] at hbelow
          exact hbelow.1
        subst hfirst
        by_cases hempty : names = []
        · rw [hempty]
          exact henters
        · have hbelow := ih h hempty (by rw [heq, List.append_cons])
          rwa [← List.append_cons] at hbelow
      · cases h

theorem enters_of_mem_paths {selection : Selection} {disk : Disk} (tree : disk.IsTree)
    {path : Path} (h : path ∈ selection.paths disk) {above rest : Location} (habove : above ≠ [])
    (hrest : rest ≠ []) (heq : path.names = above ++ rest) : selection.enters above = true := by
  rw [paths, (sortBy_perm _ _).mem_iff] at h
  obtain ⟨location, hlocation, rfl⟩ := List.mem_map.mp h
  exact enters_of_mem_search tree hlocation habove hrest heq

end Selection

/-! ## Hidden entries of the root -/

namespace Disk

variable {excludes : Text → Bool} {name : Text}

theorem CanRename.get?_of_isHidden {disk : Disk} {directory : Location} {other : Text}
    (h : disk.CanRename excludes directory other) (tree : disk.IsTree)
    (hname : isHidden name = true) :
    (disk.move (directory ++ [other]) (directory ++ [pascalCase other])).get? [name] =
      disk.get? [name] := by
  have hrelabels := h.relabels tree
  refine Option.ext fun entry => ⟨fun hget => ?_, fun hget => ?_⟩
  · obtain ⟨source, hsource, hmoved⟩ := hrelabels.onto _ _ hget
    by_cases hprefix : directory ++ [other] <+: source
    · -- A new name has no dot, and so is not hidden.
      obtain ⟨rest, rfl⟩ := hprefix
      rw [Location.moved_append, List.append_assoc, List.singleton_append,
        List.append_eq_singleton_iff] at hmoved
      obtain ⟨-, heq⟩ | ⟨-, heq⟩ := hmoved
      · rw [List.cons.injEq] at heq
        have hdot : '.' ∉ pascalCase other := not_mem_pascalCase (by decide) (by decide) other
        rw [isHidden, ← heq.1, beq_iff_eq] at hname
        exact absurd (List.mem_of_head? hname) hdot
      · cases heq
    · rw [Location.moved_of_not_prefix _ hprefix] at hmoved
      rwa [hmoved] at hsource
  · have hkept := hrelabels.kept _ _ hget
    rwa [Location.moved_of_not_prefix] at hkept
    rintro ⟨rest, heq⟩
    rw [List.append_assoc, List.singleton_append, List.append_eq_singleton_iff] at heq
    obtain ⟨rfl, heq⟩ | ⟨-, heq⟩ := heq
    · rw [List.cons.injEq] at heq
      have hentered := h.entered
      rw [List.nil_append, heq.1, leavesFolder, List.getLastD_cons, List.getLastD_nil, hname] at hentered
      cases hentered
    · cases heq

/-- Renaming folders leaves hidden entries of the root as they are. -/
theorem FolderMoves.get?_of_isHidden {before after : Disk} {renames : List FolderRename}
    (h : FolderMoves excludes before renames after) (tree : before.IsTree)
    (hname : isHidden name = true) : after.get? [name] = before.get? [name] := by
  induction h with
  | nil disk => rfl
  | cons hcan _ ih => rw [ih (hcan.isTree tree), hcan.get?_of_isHidden tree hname]

/-- Where a path leads to the same place on two disks, the same is found there. -/
theorem find?_congr {disk other : Disk} {path : Path} {place : Place}
    (h : disk.locate true path = .ok place) (h' : other.locate true path = .ok place)
    (hsame : disk.at? place = other.at? place) :
    disk.find? path = other.find? path ∧ disk.read path = other.read path := by
  constructor
  · rw [find?, h, find?, h']
    simp only [hsame]
  · rw [read, h, read, h']
    simp only [bind, Except.bind, hsame]

/-- The path of a name leads to the entry of the root with that name, if it is no link. -/
theorem IsTree.locate_root {disk : Disk} (tree : disk.IsTree) (hname : IsEntryName name)
    (hlink : ∀ target, disk.get? [name] ≠ some (.link target)) :
    disk.locate true ⟨[], [name]⟩ = .ok (.inside [name]) := by
  refine tree.locate_place ⟨?_, rfl⟩ fun _ => hlink
  intro other hother
  rwa [List.mem_singleton.mp hother]

end Disk

namespace Job

/-! ## Rules of the project -/

theorem returns_versionedFiles {before after : Workspace} {listed : Option (List Text)}
    (tree : before.disk.IsTree) (hgit : before.disk.get? [".git".toList] = none)
    (h : versionedFiles.Returns before listed after) : listed = none ∧ after = before := by
  have hpath : Path.ofText ".git" = ⟨[], [".git".toList]⟩ := by decide
  have hname : Disk.IsEntryName ".git".toList := by decide
  have hlocate := tree.locate_root hname fun target hlink => by
    rw [hgit] at hlink
    cases hlink
  rw [← hpath] at hlocate
  have hholds : before.disk.holds (Path.ofText ".git") = false := by
    rw [Disk.holds, Disk.find?, hlocate]
    exact congrArg (fun found => (found.map fun entry => (Disk.Place.inside [".git".toList], entry)).isSome) hgit
  rw [versionedFiles, returns_bind] at h
  obtain ⟨found, middle, hfound, h⟩ := h
  obtain ⟨rfl, rfl⟩ := returns_disk.mp hfound
  rw [hholds] at h
  exact returns_pure.mp h

theorem returns_readUtf8 {path : Path} {text : Text} {before after : Workspace} :
    (readUtf8 path).Returns before text after ↔ after = before ∧
      ∃ bytes decoded, before.disk.read path = .ok bytes ∧
        Encoding.utf8.decode bytes = .ok decoded ∧ text = Text.unifyNewlines decoded := by
  rw [readUtf8, returns_bind]
  constructor
  · rintro ⟨bytes, middle, hread, h⟩
    obtain ⟨hread, rfl⟩ := returns_readBytes.mp hread
    cases hdecode : Encoding.utf8.decode bytes with
    | error fault => simp [hdecode] at h
    | ok decoded =>
      rw [hdecode] at h
      obtain ⟨rfl, rfl⟩ := returns_pure.mp h
      exact ⟨rfl, bytes, decoded, hread, hdecode, rfl⟩
  · rintro ⟨rfl, bytes, decoded, hread, hdecode, rfl⟩
    refine ⟨bytes, after, returns_readBytes.mpr ⟨hread, rfl⟩, ?_⟩
    rw [hdecode]
    exact returns_pure.mpr ⟨rfl, rfl⟩

/-- The lines of the ignore file depend on this file alone. -/
theorem returns_ignoreLines_congr {lines : List Text} {before after other : Workspace}
    (tree : before.disk.IsTree) (tree' : other.disk.IsTree)
    (hlink : ∀ target, other.disk.get? [".gitignore".toList] ≠ some (.link target))
    (hsame : before.disk.get? [".gitignore".toList] = other.disk.get? [".gitignore".toList])
    (h : ignoreLines.Returns before lines after) :
    after = before ∧ ignoreLines.Returns other lines other := by
  have hpath : Path.ofText ".gitignore" = ⟨[], [".gitignore".toList]⟩ := by decide
  have hname : Disk.IsEntryName ".gitignore".toList := by decide
  have hlocate := tree.locate_root hname (hsame ▸ hlink)
  have hlocate' := tree'.locate_root hname hlink
  rw [← hpath] at hlocate hlocate'
  obtain ⟨hfind, hread⟩ := Disk.find?_congr hlocate hlocate' hsame
  have hholds : before.disk.holdsFile (Path.ofText ".gitignore") =
      other.disk.holdsFile (Path.ofText ".gitignore") := by
    rw [Disk.holdsFile, hfind, Disk.holdsFile]
  rw [ignoreLines, returns_bind] at h ⊢
  obtain ⟨found, middle, hfound, h⟩ := h
  obtain ⟨rfl, rfl⟩ := returns_disk.mp hfound
  rw [hholds] at h
  split at h
  · rename_i hfile
    rw [returns_bind] at h
    obtain ⟨text, last, htext, h⟩ := h
    rw [returns_readUtf8, hread] at htext
    obtain ⟨rfl, rfl⟩ := returns_pure.mp h
    obtain ⟨rfl, htext⟩ := htext
    refine ⟨rfl, _, _, returns_disk.mpr ⟨rfl, rfl⟩, ?_⟩
    rw [if_pos hfile, returns_bind]
    exact ⟨text, other, returns_readUtf8.mpr ⟨rfl, htext⟩, returns_pure.mpr ⟨rfl, rfl⟩⟩
  · rename_i hfile
    obtain ⟨rfl, rfl⟩ := returns_pure.mp h
    refine ⟨rfl, _, _, returns_disk.mpr ⟨rfl, rfl⟩, ?_⟩
    rw [if_neg hfile]
    exact returns_pure.mpr ⟨rfl, rfl⟩

/-- The rules of a project depend on its ignore file alone. -/
theorem returns_projectRules_congr {ignores : Text → Bool} {before after other : Workspace}
    (tree : before.disk.IsTree) (tree' : other.disk.IsTree)
    (hlink : ∀ target, other.disk.get? [".gitignore".toList] ≠ some (.link target))
    (hsame : before.disk.get? [".gitignore".toList] = other.disk.get? [".gitignore".toList])
    (h : (projectRules tools).Returns before ignores after) :
    after = before ∧ (projectRules tools).Returns other ignores other := by
  rw [projectRules, returns_bind] at h ⊢
  obtain ⟨lines, middle, hlines, h⟩ := h
  obtain ⟨hmiddle, hlines⟩ := returns_ignoreLines_congr tree tree' hlink hsame hlines
  obtain ⟨hrules, hafter⟩ := returns_ignoreRules.mp h
  exact ⟨hafter.trans hmiddle, lines, other, hlines, returns_ignoreRules.mpr ⟨hrules, rfl⟩⟩

/-- Without version control, the files to work on are those that neither the rules of the
project nor the excluded patterns match. -/
theorem returns_discover_of_unversioned {extensions excluded : List Text} {paths : List Path}
    {before after : Workspace} (tree : before.disk.IsTree)
    (hgit : before.disk.get? [".git".toList] = none)
    (h : (discover tools extensions excluded).Returns before paths after) :
    ∃ ignores wanted middle, (projectRules tools).Returns before ignores middle ∧
      paths = Selection.paths
        ⟨tools.excludedBy excluded, fun path => !ignores path, wanted⟩
        before.disk := by
  obtain ⟨keeps, excludes, middle, last, hkeeps, hexcludes, rfl⟩ := returns_discover h
  rw [keptPaths, returns_bind] at hkeeps
  obtain ⟨listed, stop, hlisted, hkeeps⟩ := hkeeps
  obtain ⟨rfl, rfl⟩ := returns_versionedFiles tree hgit hlisted
  rw [returns_bind] at hkeeps
  obtain ⟨ignores, stop, hrules, hkeeps⟩ := hkeeps
  obtain ⟨rfl, rfl⟩ := returns_pure.mp hkeeps
  exact ⟨ignores, _, _, hrules, by rw [(returns_exclusion hexcludes).1]⟩

end Job

/-- Whether patterns match a location, itself or through a folder above it. -/
def Location.IsMatched (matched : Text → Bool) (location : Location) : Prop :=
  matched location.toPath.toText = true ∨
    ∃ above rest, above ≠ [] ∧ rest ≠ [] ∧ location = above ++ rest ∧
      matched (directoryText above) = true

namespace Job

/-- Without version control, no file is loaded that the rules of the project match where it
is, or that is excluded there. -/
theorem returns_loadProject_of_unversioned {settings : Settings} {files : List SourceFile}
    {before after : Workspace} (tree : before.disk.IsTree)
    (hgit : before.disk.get? [".git".toList] = none)
    (h : (loadProject tools settings).Returns before files after) :
    ∃ ignores middle, (projectRules tools).Returns before ignores middle ∧ ∀ file ∈ files,
      ignores (Location.toPath file.path.names).toText = false ∧
        ¬ Location.IsMatched (tools.excludedBy settings.exclude) file.path.names := by
  rw [loadProject, returns_bind] at h
  obtain ⟨paths, middle, hpaths, h⟩ := h
  obtain ⟨ignores, wanted, last, hrules, rfl⟩ := returns_discover_of_unversioned tree hgit hpaths
  refine ⟨ignores, last, hrules, fun file hfile => ?_⟩
  have hmem := (returns_loadAll h).1.subset (List.mem_map_of_mem hfile)
  obtain ⟨-, htakes, -⟩ := Selection.mem_paths tree hmem
  simp only [Selection.takes, Bool.and_eq_true, Bool.not_eq_true'] at htakes
  refine ⟨htakes.1.1.1.2, ?_⟩
  rintro (hmatched | ⟨above, rest, habove, hrest, heq, hmatched⟩)
  · exact absurd (htakes.1.1.2.symm.trans hmatched) Bool.false_ne_true
  · have henters := Selection.enters_of_mem_paths tree hmem habove hrest heq
    simp only [Selection.enters, Bool.and_eq_true, Bool.not_eq_true'] at henters
    exact absurd (henters.2.symm.trans hmatched) Bool.false_ne_true

end Job

/-! ## Migrations -/

namespace MigrationRun

open Job

variable {settings : Settings} {files : List SourceFile} {before after : Workspace}
  (run : MigrationRun tools settings before files after)

/-- A file that is not loaded is left as it is by the stages after loading, except where the
manifest leads to it. -/
theorem keepsFile (tree : run.start.disk.IsTree) {location : Location} {bytes : Bytes}
    (hget : run.start.disk.get? location = some (.file bytes))
    (hloaded : ∀ file ∈ run.loaded, file.path.names ≠ location) :
    (∀ file ∈ files, file.path.names ≠ location) ∧
      (after.disk.get? location = some (.file bytes) ∨
        after.disk.locate true Manifest.path = .ok (.inside location)) := by
  obtain ⟨hdone, -, hkeeps, hpaths⟩ := run.keepsFiles tree
  have hwrites := run.writesAt tree
  have hplace : (FileRename.placeAfter run.renames location.toPath).names = location := by
    rw [FileRename.placeAfter, FileRename.of?_eq_none]
    · rfl
    · intro rename hrename heq
      obtain ⟨file, hfile, hofPath⟩ := FileRename.mem_plan.mp (hdone.subset hrename)
      rw [FileRename.oldPath_of_ofPath? hofPath] at heq
      exact hloaded file hfile (congrArg Path.names heq)
  have hready := hkeeps.kept _ _ hget
  rw [hplace] at hready
  have hrecords : ∀ file ∈ files, file.path.names ≠ location := by
    intro file hfile hnames
    obtain ⟨source, hsource, heq⟩ := List.mem_map.mp (hpaths ▸ List.mem_map_of_mem hfile)
    have hnamed := namesFile_of_returns_loadProject tree run.loads hsource
    obtain ⟨-, held, hheld⟩ := id hnamed
    refine hloaded source hsource (hkeeps.apart _ _ _ _ hheld hget ?_)
    rw [hnamed.toPath_names, heq, hnames, hplace]
  refine ⟨hrecords, ?_⟩
  by_cases hmanifest : run.ready.disk.locate true Manifest.path = .ok (.inside location)
  · exact .inr (hwrites.walks _ _ _ hmanifest)
  · refine .inl ?_
    have hkept := hwrites.kept (.inside location)
    simp only [Disk.at?_inside] at hkept
    rw [hkept, hready]
    rintro (h | h)
    · exact hmanifest h
    · obtain ⟨file, hfile, heq⟩ := List.mem_map.mp h
      exact hrecords file hfile (Disk.Place.inside.inj heq)

end MigrationRun

/-- What a migration of a project without version control leaves alone. Folders are renamed
first, by a chain of moves that carries each file to a location where it has the same name; it
stays where it is if it is settled. A file that is matched by the rules of the project at the
location to which it is carried, or excluded there, itself or through a folder, keeps its bytes
and is in no record, unless the path of the manifest leads to it. -/
theorem Job.keepsFile_of_isIgnored {settings : Settings} {files : List SourceFile}
    {before after : Workspace} (tree : before.disk.IsTree)
    (hgit : before.disk.get? [".git".toList] = none)
    (hlink : ∀ target, before.disk.get? [".gitignore".toList] ≠ some (.link target))
    (h : (migrate tools settings).Returns before files after) :
    ∃ ignores folders middle, (projectRules tools).Returns before ignores before ∧
      Disk.FolderMoves (tools.excludedBy settings.exclude) before.disk folders middle ∧
      ∀ location bytes, before.disk.get? location = some (.file bytes) →
        (FolderRename.carry folders location).getLast? = location.getLast? ∧
        (location.IsSettled (tools.excludedBy settings.exclude) →
          FolderRename.carry folders location = location) ∧
        (ignores (FolderRename.carry folders location).toPath.toText = true ∨
            (FolderRename.carry folders location).IsMatched (tools.excludedBy settings.exclude) →
          (∀ file ∈ files, file.path.names ≠ FolderRename.carry folders location) ∧
          (after.disk.get? (FolderRename.carry folders location) = some (.file bytes) ∨
            after.disk.locate true Manifest.path =
              .ok (.inside (FolderRename.carry folders location)))) := by
  obtain ⟨run, hexcludes⟩ := exists_migrationRun h
  have hfolders := run.renamesFolders
  rw [hexcludes] at hfolders
  have treeOpened : run.opened.disk.IsTree := run.opened_disk ▸ tree
  obtain ⟨hmoves, -⟩ := returns_renameFolders treeOpened hfolders
  have treeStart : run.start.disk.IsTree := run.start_disk ▸ hmoves.isTree treeOpened
  have hhidden {name : Text} (hname : isHidden name = true) :
      run.start.disk.get? [name] = before.disk.get? [name] := by
    rw [run.start_disk, hmoves.get?_of_isHidden treeOpened hname, run.opened_disk]
  obtain ⟨ignores, last, hrules, hnot⟩ := returns_loadProject_of_unversioned treeStart
    ((hhidden (by decide)).trans hgit) run.loads
  obtain ⟨-, hrules⟩ := returns_projectRules_congr treeStart tree hlink (hhidden (by decide)) hrules
  refine ⟨ignores, run.folders, run.moved.disk, hrules, run.opened_disk ▸ hmoves, ?_⟩
  intro location bytes hget
  have hopened : run.opened.disk.get? location = some (.file bytes) := by rwa [run.opened_disk]
  have hcarried := (hmoves.relabels treeOpened).kept _ _ hopened
  rw [← run.start_disk] at hcarried
  refine ⟨hmoves.getLast?_carry treeOpened hopened (by simp),
    carry_of_isSettled treeOpened hfolders hopened (by simp), fun hignored => ?_⟩
  refine run.keepsFile treeStart hcarried fun file hfile heq => ?_
  obtain ⟨hrule, hmatched⟩ := hnot file hfile
  rw [heq] at hrule hmatched
  rcases hignored with hignored | hignored
  · exact absurd (hrule.symm.trans hignored) Bool.false_ne_true
  · exact hmatched hignored

namespace Job

/-- A project with one file, two folders down. -/
def viewsProject : Workspace where
  root := ⟨[], []⟩
  disk.entries := [(["app".toList], .directory), (["app".toList, "views".toList], .directory),
    (["app".toList, "views".toList, "page.php".toList], .file [60, 63, 112, 104, 112])]

/-- Settings with an excluded pattern. -/
def viewsSettings (pattern : Text) : Settings := { rootNamespace := "Acme", exclude := [pattern] }

/-- A pattern for the folder in its renamed parent keeps the file. -/
theorem keepsFile_of_isIgnored_views :
    viewsProject.disk.IsTree ∧
    (migrate .standard (viewsSettings "/App/views")).Returns viewsProject []
      ((migrate .standard (viewsSettings "/App/views")).outcome viewsProject).2 ∧
    ∃ ignores folders middle, (projectRules .standard).Returns viewsProject ignores viewsProject ∧
      Disk.FolderMoves (Tools.standard.excludedBy ["/App/views"]) viewsProject.disk folders middle ∧
      ∀ location bytes, viewsProject.disk.get? location = some (.file bytes) →
        (FolderRename.carry folders location).getLast? = location.getLast? ∧
        (location.IsSettled (Tools.standard.excludedBy ["/App/views"]) →
          FolderRename.carry folders location = location) ∧
        (ignores (FolderRename.carry folders location).toPath.toText = true ∨
            (FolderRename.carry folders location).IsMatched
              (Tools.standard.excludedBy ["/App/views"]) →
          (∀ file ∈ ([] : List SourceFile),
            file.path.names ≠ FolderRename.carry folders location) ∧
          (((migrate .standard (viewsSettings "/App/views")).outcome viewsProject).2.disk.get?
              (FolderRename.carry folders location) = some (.file bytes) ∨
            ((migrate .standard (viewsSettings "/App/views")).outcome viewsProject).2.disk.locate true
              Manifest.path = .ok (.inside (FolderRename.carry folders location)))) := by
  have hreturns : (migrate .standard (viewsSettings "/App/views")).Returns viewsProject []
      ((migrate .standard (viewsSettings "/App/views")).outcome viewsProject).2 :=
    returns_of_toOption (by decide +kernel)
  have hlink : ∀ target, viewsProject.disk.get? [".gitignore".toList] ≠ some (.link target) := by
    intro target h
    have hnone : viewsProject.disk.get? [".gitignore".toList] = none := by decide
    rw [hnone] at h
    cases h
  exact ⟨by decide, hreturns, keepsFile_of_isIgnored (by decide) (by decide) hlink hreturns⟩

/-- Not every ignored file is left alone: a pattern for the folder as it was does not match it
in its renamed parent, so the folder and the file are renamed, and the file is rewritten. -/
theorem not_forall_keepsFile :
    ¬ ∀ (settings : Settings) (files : List SourceFile) (before after : Workspace)
        (ignores : Text → Bool) (location : Location) (bytes : Bytes),
      before.disk.IsTree → before.disk.get? [".git".toList] = none →
      (projectRules .standard).Returns before ignores before →
      (migrate .standard settings).Returns before files after →
      before.disk.get? location = some (.file bytes) →
      ignores location.toPath.toText = true ∨
        location.IsMatched (Tools.standard.excludedBy settings.exclude) →
      ∃ place : Location, place.getLast? = location.getLast? ∧
        after.disk.get? place = some (.file bytes) ∧ ∀ file ∈ files, file.path.names ≠ place := by
  intro h
  have hrules : (projectRules .standard).Returns viewsProject (Ignore.isIgnored []) viewsProject :=
    rfl
  have hreturns : (migrate .standard (viewsSettings "/app/views")).Returns viewsProject
      [⟨⟨[], ["App".toList, "Views".toList, "Page.php".toList]⟩, "Page", "<?php",
        some "Acme\\App\\Views", []⟩]
      ((migrate .standard (viewsSettings "/app/views")).outcome viewsProject).2 :=
    returns_of_toOption (by decide +kernel)
  have hmatched : Location.IsMatched (Tools.standard.excludedBy ["/app/views"])
      ["app".toList, "views".toList, "page.php".toList] :=
    .inr ⟨["app".toList, "views".toList], ["page.php".toList], by decide, by decide, rfl,
      by decide +kernel⟩
  obtain ⟨place, hname, hget, -⟩ := h (viewsSettings "/app/views") _ viewsProject _ _
    ["app".toList, "views".toList, "page.php".toList] [60, 63, 112, 104, 112] (by decide)
    (by decide) hrules hreturns (by decide) (.inr hmatched)
  have hnone : ∀ entry ∈ ((migrate .standard (viewsSettings "/app/views")).outcome
      viewsProject).2.disk.entries, entry.1.getLast? ≠ some "page.php".toList := by
    decide +kernel
  have hplace : place ≠ [] := by
    rintro rfl
    cases hname
  exact hnone _ (Disk.mem_of_get? hplace hget) hname

end Job

end Namespacer
