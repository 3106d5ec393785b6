import Namespacer.Proofs.FolderMoves
import Namespacer.Proofs.WrittenFiles

/-!
# The stages of a migration

A migration that returns has gone through all of its stages: folders are renamed, files are
loaded and renamed, the manifest is brought up to date, and the files are replaced in, named,
linked and persisted. `MigrationRun` lists the stages with the workspaces in between, so that
what a migration does is put together from what its stages do.

* `Job.exists_isLinked`: a migration that returns has such a run.
* `MigrationRun.keepsFiles`: where the files are when all renaming is done.
* `MigrationRun.writesAt`: what is written after that.
-/

namespace Namespacer

variable {tools : Tools}

namespace Job

/-! ## Finding imports -/

/-- Finding imports changes no other part of any file. -/
theorem map_of_returns_resolve {α : Type} {part : SourceFile → α}
    (hpart : ∀ file imports, part { file with imports } = part file) {fast : Bool}
    {files resolved : List SourceFile} {index : SymbolIndex} {before after : Workspace}
    (h : (resolve tools fast files index).Returns before resolved after) :
    resolved.map part = files.map part := by
  rw [resolve] at h
  split at h
  · have hassign : ∀ (found : List (Path × List Text)) (files : List SourceFile),
        (assignImports found files).map part = files.map part := by
      intro found
      induction found with
      | nil => exact fun _ => rfl
      | cons entry found ih =>
        obtain ⟨path, imports⟩ := entry
        intro files
        rw [assignImports, ih]
        refine (Registry.map_files_updateLast ?_ path (Registry.ofFiles files)).trans ?_
        · exact fun file => hpart file imports
        · simp [Registry.files, Registry.ofFiles, Function.comp_def]
    rw [resolveInParallel, resolveAsCompleted, returns_bind] at h
    obtain ⟨_, middle, -, h⟩ := h
    split at h
    · rw [(returns_pure.mp h).1]
    split at h
    · exact absurd h not_returns_throw
    · rw [(returns_pure.mp h).1, hassign]
  · rw [resolveInOrder, returns_bind] at h
    obtain ⟨_, middle, -, h⟩ := h
    clear before
    induction files generalizing resolved middle after with
    | nil => rw [(returns_pure.mp h).1]
    | cons file files ih =>
      rw [resolveEach, returns_bind] at h
      obtain ⟨first, w₁, hfirst, h⟩ := h
      rw [returns_bind] at h
      obtain ⟨others, w₂, hothers, h⟩ := h
      rw [resolveFile, returns_bind] at hfirst
      obtain ⟨_, _, -, hfirst⟩ := hfirst
      rw [(returns_pure.mp h).1, (returns_pure.mp hfirst).1, List.map_cons, List.map_cons,
        ih w₁ hothers, hpart]

end Job

/-! ## Stages -/

/-- The stages of a migration that returns, with the workspaces in between. What only
logs is left out. -/
structure MigrationRun (tools : Tools) (settings : Settings) (before : Workspace)
    (files : List SourceFile) (after : Workspace) where
  excludes : Text → Bool
  opened : Workspace
  opened_disk : opened.disk = before.disk
  folders : List FolderRename
  moved : Workspace
  renamesFolders : (Job.renameFolders excludes).Returns opened folders moved
  start : Workspace
  start_disk : start.disk = moved.disk
  loaded : List SourceFile
  stop : Workspace
  loads : (Job.loadProject tools settings).Returns start loaded stop
  run : RenameRun
  carried : Workspace
  carries : (renameFiles loaded).run stop = (run, carried)
  renamed : List SourceFile
  renames : List FileRename
  settled : Workspace
  settles : run.outcome.Returns carried (renamed, renames) settled
  ready : Workspace
  ready_disk : ready.disk = settled.disk
  manifest : Json × List (Codes × Codes)
  updated : Workspace
  updates : (Job.updateManifest (renamed.map fun file => Manifest.partsOf file.path)
    (Json.codes settings.rootNamespace) (Json.codes settings.phpConstraint)).Returns
      ready manifest updated
  index : SymbolIndex
  indexed : Workspace
  indexed_disk : indexed.disk = updated.disk
  linked : Workspace
  resolves : (Job.resolve tools settings.fast (assignNamespaces
    (applyReplacements settings.replacements renamed) settings.rootNamespace) index).Returns
      indexed files linked
  count : Nat
  persisted : Workspace
  persists : (Job.persist tools settings.encoding files).Returns linked count persisted
  after_disk : after.disk = persisted.disk

/-- The stages start from what the settings say and what the stages before have left: from
patterns that are those of the settings, from the project as it was up to what is logged, and
from an index of the files whose imports are found. -/
structure MigrationRun.IsLinked {settings : Settings} {before after : Workspace}
    {files : List SourceFile} (run : MigrationRun tools settings before files after) : Prop where
  usable : settings.isUsable = true
  excludes : run.excludes = tools.excludedBy settings.exclude
  opened : run.opened = before
  start : run.start.fresh = run.moved.fresh
  index : run.index = (SymbolIndex.build (assignNamespaces
    (applyReplacements settings.replacements run.renamed) settings.rootNamespace)).1

namespace Job

theorem returns_ensureUsable {settings : Settings} {before after : Workspace} :
    (ensureUsable settings).Returns before () after ↔
      settings.isUsable = true ∧ after = before := by
  rw [ensureUsable]
  split
  · rename_i husable
    simp [returns_pure, husable]
  · rename_i hunusable
    simp [hunusable]

/-- A migration that returns goes through all stages. -/
theorem exists_isLinked {settings : Settings} {files : List SourceFile}
    {before after : Workspace} (h : (migrate tools settings).Returns before files after) :
    ∃ run : MigrationRun tools settings before files after, run.IsLinked := by
  rw [migrate, returns_bind] at h
  obtain ⟨_, w₁, husable, h⟩ := h
  rw [returns_bind] at h
  obtain ⟨excludes, w₂, hexcludes, h⟩ := h
  rw [returns_bind] at h
  obtain ⟨folders, w₃, hfolders, h⟩ := h
  rw [returns_bind] at h
  obtain ⟨_, w₄, hfoldersLog, h⟩ := h
  rw [returns_bind] at h
  obtain ⟨loaded, w₅, hload, h⟩ := h
  rw [returns_bind] at h
  obtain ⟨run, w₆, hrun, h⟩ := h
  rw [returns_bind] at h
  obtain ⟨⟨renamed, renames⟩, w₇, houtcome, h⟩ := h
  rw [returns_bind] at h
  obtain ⟨_, w₈, hfilesLog, h⟩ := h
  rw [returns_bind] at h
  obtain ⟨manifest, w₉, hmanifest, h⟩ := h
  rw [returns_bind] at h
  obtain ⟨index, w₁₀, hindex, h⟩ := h
  rw [returns_bind] at h
  obtain ⟨resolved, w₁₁, hresolve, h⟩ := h
  rw [returns_bind] at h
  obtain ⟨count, w₁₂, hpersist, h⟩ := h
  rw [returns_bind] at h
  obtain ⟨_, w₁₃, hlog, h⟩ := h
  have hlast : files = resolved ∧ after.disk = w₁₃.disk := by
    simp only at h
    split at h
    · rw [returns_bind] at h
      obtain ⟨_, w₁₄, hinstall, h⟩ := h
      obtain ⟨rfl, rfl⟩ := returns_pure.mp h
      exact ⟨rfl, hinstall.disk_eq keepsDisk_installPackages⟩
    · obtain ⟨rfl, rfl⟩ := returns_pure.mp h
      exact ⟨rfl, rfl⟩
  obtain ⟨rfl, hafter⟩ := hlast
  have hsettings := returns_ensureUsable.mp husable
  have hopened : w₂ = before := (returns_exclusion hexcludes).2.trans hsettings.2
  have hsymbols : index = (SymbolIndex.build (assignNamespaces
      (applyReplacements settings.replacements renamed) settings.rootNamespace)).1 := by
    rw [buildIndex, returns_bind] at hindex
    obtain ⟨_, _, -, hindex⟩ := hindex
    exact (returns_pure.mp hindex).1
  refine ⟨{
    excludes, folders, loaded, run, renamed, renames, manifest, index, count
    opened := w₂
    opened_disk := congrArg Workspace.disk hopened
    moved := w₃
    renamesFolders := hfolders
    start := w₄
    start_disk := hfoldersLog.disk_eq (keepsDisk_log _)
    stop := w₅
    loads := hload
    carried := w₆
    carries := returns_liftM.mp hrun
    settled := w₇
    settles := houtcome
    ready := w₈
    ready_disk := hfilesLog.disk_eq (keepsDisk_log _)
    updated := w₉
    updates := hmanifest
    indexed := w₁₀
    indexed_disk := hindex.disk_eq (keepsDisk_buildIndex _)
    linked := w₁₁
    resolves := hresolve
    persisted := w₁₂
    persists := hpersist
    after_disk := hafter.trans (hlog.disk_eq (keepsDisk_log _)) }, ?_⟩
  refine ⟨hsettings.1, (returns_exclusion hexcludes).1, hopened, ?_, hsymbols⟩
  simp only [returns_modify.mp hfoldersLog]
  rfl

/-- A migration that returns leaves alone what its settings exclude. -/
theorem exists_migrationRun {settings : Settings} {files : List SourceFile}
    {before after : Workspace} (h : (migrate tools settings).Returns before files after) :
    ∃ run : MigrationRun tools settings before files after,
      run.excludes = tools.excludedBy settings.exclude := by
  obtain ⟨run, hlinked⟩ := exists_isLinked h
  exact ⟨run, hlinked.excludes⟩

theorem nonempty_migrationRun {settings : Settings} {files : List SourceFile}
    {before after : Workspace} (h : (migrate tools settings).Returns before files after) :
    Nonempty (MigrationRun tools settings before files after) := by
  obtain ⟨run, -⟩ := exists_migrationRun h
  exact ⟨run⟩

end Job

/-! ## What holds along a run -/

namespace MigrationRun

open Job

variable {settings : Settings} {files : List SourceFile} {before after : Workspace}
  (run : MigrationRun tools settings before files after)

theorem folderMoves (tree : before.disk.IsTree) :
    Disk.FolderMoves run.excludes before.disk run.folders run.start.disk := by
  have hmoves := (returns_renameFolders (run.opened_disk ▸ tree) run.renamesFolders).1
  rwa [run.opened_disk, ← run.start_disk] at hmoves

theorem isTree_start (tree : before.disk.IsTree) : run.start.disk.IsTree :=
  (run.folderMoves tree).isTree tree

/-- Some of the plans for the loaded files are carried out, and the renames are carried into the
contents of all files. -/
theorem exists_carries (tree : run.start.disk.IsTree) :
    ∃ found : RenameRun, found.done = run.renames ∧
      found.Carries (FileRename.plan run.loaded) (Registry.ofFiles run.loaded)
        run.start.disk run.ready.disk ∧
      carryIntoContents run.renames found.files = .ok run.renamed := by
  obtain ⟨found, hdone, hcarries, hedited, -⟩ :=
    returns_outcome_renameFiles tree run.loads run.carries run.settles
  rw [run.ready_disk]
  exact ⟨found, hdone, hcarries, hedited⟩

/-- The files that are returned are the loaded ones, where the renames have taken them. -/
theorem map_path (tree : run.start.disk.IsTree) :
    files.map (·.path) =
      run.loaded.map (fun file => FileRename.placeAfter run.renames file.path) := by
  obtain ⟨found, hdone, hcarries, -, hpaths⟩ :=
    returns_outcome_renameFiles tree run.loads run.carries run.settles
  rw [map_of_returns_resolve (fun _ _ => rfl) run.resolves, ← hdone, ← hcarries.map_path, ← hpaths]
  simp [assignNamespaces, applyReplacements, Function.comp_def]

/-- Renaming the files of a migration: the records follow their files, and no others change. -/
theorem keepsFiles (tree : run.start.disk.IsTree) :
    run.renames.Sublist (FileRename.plan run.loaded) ∧ run.ready.disk.IsTree ∧
      run.start.disk.KeepsFiles run.ready.disk
        (fun location => (FileRename.placeAfter run.renames location.toPath).names) ∧
      files.map (·.path) =
        run.loaded.map (fun file => FileRename.placeAfter run.renames file.path) := by
  obtain ⟨found, hdone, hcarries, -⟩ := run.exists_carries tree
  rw [← hdone]
  exact ⟨hcarries.done, hcarries.tree, hcarries.keepsFiles, hdone ▸ run.map_path tree⟩

/-- The files that are returned are regular files at distinct paths when all renaming is done. -/
theorem namesFile (tree : run.start.disk.IsTree) :
    (files.map (·.path)).Nodup ∧ ∀ file ∈ files, run.ready.disk.NamesFile file.path := by
  obtain ⟨found, hdone, hcarries, -⟩ := run.exists_carries tree
  have hpaths : files.map (·.path) =
      (run.loaded.map (·.path)).map (FileRename.placeAfter run.renames) := by
    rw [run.map_path tree, List.map_map]
    rfl
  have hloaded : ∀ path ∈ run.loaded.map (·.path), run.start.disk.NamesFile path := by
    intro path hpath
    obtain ⟨source, hsource, rfl⟩ := List.mem_map.mp hpath
    exact namesFile_of_returns_loadProject tree run.loads hsource
  constructor
  · rw [hpaths, ← hdone]
    exact hcarries.nodup_placeAfter (returns_loadProject tree run.loads).1 hloaded
  · intro file hfile
    obtain ⟨path, hpath, heq⟩ := List.mem_map.mp (hpaths ▸ List.mem_map_of_mem hfile)
    rw [← heq, ← hdone]
    exact hcarries.namesFile (fun _ => isReady_of_mem_plan tree run.loads) (hloaded path hpath)

/-- Between the manifest and the files nothing is written. -/
theorem linked_disk : run.linked.disk = run.updated.disk :=
  (run.resolves.disk_eq (keepsDisk_resolve _ _ _)).trans run.indexed_disk

/-- Bringing the manifest up to date writes the file that its path leads to. -/
theorem writesAt_manifest (tree : run.start.disk.IsTree) :
    Disk.WritesAt (fun place => run.ready.disk.locate true Manifest.path = .ok place)
      run.ready.disk run.linked.disk := by
  obtain ⟨-, treeReady, -⟩ := run.keepsFiles tree
  rw [run.linked_disk]
  exact writesAt_updateManifest treeReady run.updates

/-- Only the manifest and files of the registry are written. -/
theorem writesAt (tree : run.start.disk.IsTree) :
    Disk.WritesAt (fun place => run.ready.disk.locate true Manifest.path = .ok place ∨
      place ∈ files.map fun file => .inside file.path.names) run.ready.disk after.disk := by
  have hmanifest := run.writesAt_manifest tree
  have hnames : ∀ file ∈ files, run.linked.disk.NamesFile file.path :=
    fun file hfile => hmanifest.namesFile ((run.namesFile tree).2 file hfile)
  have hpersist := writesAt_persist hmanifest.tree hnames run.persists
  rw [run.after_disk]
  exact (hmanifest.mono fun _ => .inl).trans (hpersist.mono fun _ => .inr)

end MigrationRun

end Namespacer
