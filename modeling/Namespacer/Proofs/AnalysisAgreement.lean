import Namespacer.Proofs.MigrationRuns
import Namespacer.Proofs.ParallelResolution
import Namespacer.Proofs.RecordIndependence
import Namespacer.Proofs.RepeatedRenames
import Namespacer.StandardTools

/-!
# Analyses predict migrations

An analysis loads the files of a project and computes their namespaces and imports. A
migration does the same in between changes: it renames folders and files first, and brings the
manifest up to date before it looks at what it has loaded. Where nothing is renamed and nothing
is replaced, both come to the same files.

* `Job.fresh_of_returns_renameFolders`: renaming no folders leaves all but the record.
* `Job.returns_resolve`: imports are found in the same way one by one and by workers.
* `Job.returns_analyze_of_returns_migrate`: the files that a migration returns are those that an
  analysis of the project returns.
-/

namespace Namespacer

variable {tools : Tools}

theorem SymbolIndex.isStale_build (files : List SourceFile) :
    (build files).1.isStale files = false := by
  simp [isStale, build, sameFingerprints]

theorem applyReplacements_nil (files : List SourceFile) : applyReplacements [] files = files :=
  List.map_id' files

theorem map_path_assignNamespaces (files : List SourceFile) (root : Text) :
    (assignNamespaces files root).map (·.path) = files.map (·.path) := by
  rw [assignNamespaces, List.map_map]
  rfl

namespace Job

variable {before after : Workspace}

theorem Returns.unique {α : Type} {job : Job α} {a b : α} {last : Workspace}
    (h : job.Returns before a after) (h' : job.Returns before b last) : a = b ∧ after = last := by
  have heq := h.symm.trans h'
  rw [Prod.mk.injEq, Except.ok.injEq] at heq
  exact heq

/-! ## Nothing to rename -/

theorem fresh_of_returns_renameFolder {directory folder : Location} {name : Text}
    (h : (renameFolder directory name).Returns before (folder, []) after) :
    after.fresh = before.fresh := by
  rw [renameFolder] at h
  split at h
  · rw [(returns_pure.mp h).2]
  rw [returns_bind] at h
  obtain ⟨found, middle, hfound, h⟩ := h
  obtain ⟨rfl, rfl⟩ := returns_disk.mp hfound
  split at h
  · rw [returns_bind] at h
    obtain ⟨_, last, hlog, h⟩ := h
    rw [(returns_pure.mp h).2, returns_modify.mp hlog]
    rfl
  · rw [returns_bind] at h
    obtain ⟨_, last, -, h⟩ := h
    cases (returns_pure.mp h).1

theorem fresh_of_returns_renameNamed {excludes : Text → Bool} {directory : Location}
    {names : List Text} {folders : List Location}
    (h : (renameNamed excludes directory names).Returns before (folders, []) after) :
    after.fresh = before.fresh := by
  induction names generalizing before folders with
  | nil => rw [(returns_pure.mp h).2]
  | cons name names ih =>
    rw [renameNamed] at h
    split at h
    · exact ih h
    rw [returns_bind] at h
    obtain ⟨⟨folder, renames⟩, middle, hfolder, h⟩ := h
    rw [returns_bind] at h
    obtain ⟨⟨others, rest⟩, last, hothers, h⟩ := h
    obtain ⟨heq, rfl⟩ := returns_pure.mp h
    rw [Prod.mk.injEq] at heq
    obtain ⟨rfl, rfl⟩ := List.append_eq_nil_iff.mp heq.2.symm
    exact (ih hothers).trans (fresh_of_returns_renameFolder hfolder)

theorem fresh_of_returns_renameBelow {excludes : Text → Bool} {count : Nat}
    {pending : List Location}
    (h : (renameBelow excludes count pending).Returns before [] after) :
    after.fresh = before.fresh := by
  induction count generalizing pending before with
  | zero => rw [(returns_pure.mp h).2]
  | succ count ih =>
    cases pending with
    | nil => rw [(returns_pure.mp h).2]
    | cons directory pending =>
      rw [renameBelow, folderNames, bind_assoc, returns_bind] at h
      obtain ⟨found, start, hfound, h⟩ := h
      obtain ⟨rfl, rfl⟩ := returns_disk.mp hfound
      rw [pure_bind, returns_bind] at h
      obtain ⟨⟨folders, renames⟩, middle, hnamed, h⟩ := h
      rw [returns_bind] at h
      obtain ⟨others, last, hothers, h⟩ := h
      obtain ⟨heq, rfl⟩ := returns_pure.mp h
      obtain ⟨rfl, rfl⟩ := List.append_eq_nil_iff.mp heq.symm
      exact (ih hothers).trans (fresh_of_returns_renameNamed hnamed)

/-- Renaming no folders leaves all but the record. -/
theorem fresh_of_returns_renameFolders {excludes : Text → Bool}
    (h : (renameFolders excludes).Returns before [] after) : after.fresh = before.fresh := by
  rw [renameFolders, returns_bind] at h
  obtain ⟨found, middle, hfound, h⟩ := h
  obtain ⟨rfl, rfl⟩ := returns_disk.mp hfound
  exact fresh_of_returns_renameBelow h

/-- Renaming loaded files without carrying out a plan returns them as they are. -/
theorem renameFiles_of_done_nil {settings : Settings} {files : List SourceFile}
    {loaded : Workspace} (tree : before.disk.IsTree)
    (hload : (loadProject tools settings).Returns before files loaded)
    (hdone : ((renameFiles files).run loaded).1.done = []) :
    ((renameFiles files).run loaded).1 = ⟨files, [], none⟩ := by
  obtain ⟨run, carried, edited, hrun, hcarries, hedited, -⟩ := exists_renameFiles tree hload
  rw [hrun] at hdone ⊢
  have hnone : run.done = [] := hdone
  have hfiles : run.files = files := by
    rw [hcarries.files, hnone, Registry.ofFiles, List.map_map]
    exact List.map_id' files
  rw [hnone, carryIntoContents_nil, Except.ok.injEq] at hedited
  simp only [← hedited, hfiles, hnone, hcarries.complete]

/-! ## Finding imports -/

/-- With an index that is not stale, imports are found in the same way one by one and by
workers. -/
theorem returns_resolve {files : List SourceFile} {index : SymbolIndex}
    (hpaths : (files.map (·.path)).Nodup) (hfresh : index.isStale files = false) (fast : Bool)
    (before : Workspace) :
    ∃ after, (resolve tools fast files index).Returns before
      (files.map (SourceFile.analyzed tools index))
      after := by
  have hensure := returns_ensureFresh hfresh before
  cases fast with
  | false =>
    obtain ⟨after, hafter⟩ := returns_resolveEach index files before
    exact ⟨after, returns_bind.mpr ⟨(), before, hensure, hafter⟩⟩
  | true =>
    refine ⟨before, returns_bind.mpr ⟨(), before, hensure, ?_⟩⟩
    by_cases hnone : files = []
    · simp [hnone]
    rw [if_neg (by simpa using hnone), if_neg (by simp)]
    exact returns_pure.mpr ⟨(assignImports_of_perm hpaths (.refl _)).symm, rfl⟩

/-! ## Both jobs -/

/-- An analysis with a usable root namespace returns what its files are given. -/
theorem exists_returns_analyze {settings : Settings} {loaded : List SourceFile} {stop : Workspace}
    (husable : settings.isUsable = true)
    (hload : (loadProject tools settings).Returns before loaded stop) (hpaths : (loaded.map (·.path)).Nodup) :
    ∃ last, (analyze tools settings).Returns before
      ((assignNamespaces loaded settings.rootNamespace).map (SourceFile.analyzed tools
        (SymbolIndex.build (assignNamespaces loaded settings.rootNamespace)).1)) last := by
  obtain ⟨indexed, hlogged⟩ := returns_logAll ((SymbolIndex.build (assignNamespaces loaded
    settings.rootNamespace)).2.map LogEvent.duplicateTypeName) stop
  rw [← map_path_assignNamespaces loaded settings.rootNamespace] at hpaths
  obtain ⟨last, hanalyzed⟩ :=
    returns_resolve hpaths (SymbolIndex.isStale_build _) settings.fast indexed
  refine ⟨last, ?_⟩
  rw [analyze, returns_bind]
  refine ⟨(), before, returns_ensureUsable.mpr ⟨husable, rfl⟩, ?_⟩
  refine returns_bind.mpr ⟨loaded, stop, hload, returns_bind.mpr ⟨_, indexed, ?_, hanalyzed⟩⟩
  exact returns_bind.mpr ⟨(), indexed, hlogged, returns_pure.mpr ⟨rfl, rfl⟩⟩

/-- Where no folder and no file is renamed and nothing is to be replaced, an analysis of the
project, in either way, returns the files that a migration returns: the same paths, type names,
namespaces, contents and imports, in the same order. -/
theorem returns_analyze_of_returns_migrate {settings : Settings} {files loaded : List SourceFile}
    {moved stop : Workspace} (tree : before.disk.IsTree) (hplain : settings.replacements = [])
    (hfolders : (renameFolders (tools.excludedBy settings.exclude)).Returns before [] moved)
    (hload : (loadProject tools settings).Returns before loaded stop)
    (hfiles : ((renameFiles loaded).run stop).1.done = [])
    (h : (migrate tools settings).Returns before files after) (fast : Bool) :
    ∃ last, (analyze tools { settings with fast }).Returns before files last := by
  obtain ⟨run, hlinked⟩ := exists_isLinked h
  have hpaths := (returns_loadProject tree hload).1
  -- The migration loads the same files, because only the record is another one.
  have hfoldersRun := run.renamesFolders
  rw [hlinked.excludes, hlinked.opened] at hfoldersRun
  have hstart : before.fresh = run.start.fresh := by
    rw [hlinked.start, (hfoldersRun.unique hfolders).2, fresh_of_returns_renameFolders hfolders]
  obtain ⟨stop', hload', hstop⟩ := (ignoresRecord_loadProject settings).returns hstart hload
  obtain ⟨hloaded, hstopRun⟩ := run.loads.unique hload'
  -- It goes on with them as they are.
  obtain ⟨carried, hcarried, -⟩ := renameFiles_of_fresh_eq hstop loaded
  have hrenamed : run.renamed = loaded := by
    have hcarries := run.carries
    rw [hloaded, hstopRun, hcarried, renameFiles_of_done_nil tree hload hfiles,
      Prod.mk.injEq] at hcarries
    have hsettles := run.settles
    rw [← hcarries.1] at hsettles
    exact (Prod.mk.inj (returns_pure.mp hsettles).1).1
  have hresolves := run.resolves
  rw [hlinked.index, hrenamed, hplain, applyReplacements_nil] at hresolves
  have hassigned := hpaths
  rw [← map_path_assignNamespaces loaded settings.rootNamespace] at hassigned
  obtain ⟨_, hresolved⟩ :=
    returns_resolve hassigned (SymbolIndex.isStale_build _) settings.fast run.indexed
  rw [(hresolves.unique hresolved).1]
  have husable : ({ settings with fast } : Settings).isUsable = true := hlinked.usable
  exact exists_returns_analyze husable hload hpaths

/-- A project in which all names are in PascalCase. -/
def settledProject : Workspace where
  root := ⟨[], []⟩
  disk.entries := [(["Models".toList], .directory),
    (["Models".toList, "Row.php".toList],
      .file [60, 63, 112, 104, 112, 32, 99, 108, 97, 115, 115, 32, 82, 111, 119, 32, 123, 125]),
    (["Page.php".toList],
      .file [60, 63, 112, 104, 112, 32, 110, 101, 119, 32, 82, 111, 119, 59])]

/-- The files of the settled project as they are loaded. -/
def settledFiles : List SourceFile :=
  [.ofPath ⟨[], ["Models".toList, "Row.php".toList]⟩ "<?php class Row {}",
    .ofPath ⟨[], ["Page.php".toList]⟩ "<?php new Row;"]

/-- The files of the settled project after its migration. -/
def migratedFiles : List SourceFile :=
  [⟨⟨[], ["Models".toList, "Row.php".toList]⟩, "Row", "<?php class Row {}", some "App\\Models", []⟩,
    ⟨⟨[], ["Page.php".toList]⟩, "Page", "<?php new Row;", some "App", ["App\\Models\\Row"]⟩]

theorem returns_migrate_settled :
    (migrate .standard plainSettings).Returns settledProject migratedFiles
      ((migrate .standard plainSettings).outcome settledProject).2 :=
  returns_of_toOption (by decide +kernel)

theorem returns_analyze_of_returns_migrate_settled :
    settledProject.disk.IsTree ∧ plainSettings.replacements = [] ∧
      (renameFolders (Tools.standard.excludedBy plainSettings.exclude)).Returns settledProject []
        ((renameFolders (Tools.standard.excludedBy plainSettings.exclude)).outcome settledProject).2 ∧
      (loadProject .standard plainSettings).Returns settledProject settledFiles
        ((loadProject .standard plainSettings).outcome settledProject).2 ∧
      ((renameFiles settledFiles).run
        ((loadProject .standard plainSettings).outcome settledProject).2).1.done = [] ∧
      (migrate .standard plainSettings).Returns settledProject migratedFiles
        ((migrate .standard plainSettings).outcome settledProject).2 ∧
      ∀ fast, ∃ last,
        (analyze .standard { plainSettings with fast }).Returns settledProject migratedFiles last := by
  have hfolders :
      (renameFolders (Tools.standard.excludedBy plainSettings.exclude)).Returns settledProject []
        ((renameFolders (Tools.standard.excludedBy plainSettings.exclude)).outcome settledProject).2 :=
    returns_of_toOption (by decide +kernel)
  have hload : (loadProject .standard plainSettings).Returns settledProject settledFiles
      ((loadProject .standard plainSettings).outcome settledProject).2 :=
    returns_of_toOption (by decide +kernel)
  have hfiles : ((renameFiles settledFiles).run
      ((loadProject .standard plainSettings).outcome settledProject).2).1.done = [] := by
    decide +kernel
  exact ⟨by decide, rfl, hfolders, hload, hfiles, returns_migrate_settled,
    returns_analyze_of_returns_migrate (by decide) rfl hfolders hload hfiles
      returns_migrate_settled⟩

end Job

end Namespacer
