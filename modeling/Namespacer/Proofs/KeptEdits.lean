import Namespacer.Proofs.MigrationRuns
import Namespacer.Proofs.PersistedFiles

/-!
# Which edits reach the disk

A migration edits the contents of files in memory, by rename rules and by literal
replacements, renders them with namespaces and imports, and writes a file if its
rendered text differs from its edited contents. A file that has no rendered text, or one
that equals the edited contents, is not written, whatever was edited before.

* `MigrationRun.isEdited`: the files of a migration are the loaded ones, edited in memory.
* `Job.Persists.stores`: what the files hold after they were persisted.
* `Job.holdsText_migrate_iff`: after a migration that returns, a file holds its rendered
  text, or its contents if there is none, exactly if it was written or its contents are
  what its file held anyway.
* `Job.not_forall_holdsText_migrate`: so not every edit reaches the disk.
-/

namespace Namespacer

variable {tools : Tools}

/-! ## Edits in memory -/

/-- Where a file is and what it contains: all of it that reaches the disk before it is
rendered. -/
def SourceFile.placed (file : SourceFile) : Path × Text := (file.path, file.contents)

/-- The contents of a file are those of another one, edited by renames and then by
replacements. -/
def SourceFile.IsEdited (renames : List FileRename) (replacements : List Replacement)
    (source file : SourceFile) : Prop :=
  ∃ text, RenameRule.applyAll (renames.flatMap FileRename.rules) source.contents = .ok text ∧
    file.contents = Replacement.applyAll replacements text

/-- A file that holds its written text, or else another one, holds its rendered text, or
else its contents, exactly if there is a written text or the other one is its contents. -/
theorem SourceFile.holdsText_rendered_iff (file : SourceFile) {disk : Disk} {held : Text}
    (h : disk.HoldsText file.path (file.written?.getD held)) :
    disk.HoldsText file.path (file.render.getD file.contents) ↔
      file.written?.isSome = true ∨ held = file.contents := by
  cases hrender : file.render with
  | none =>
    have hwritten : file.written? = none := by simp [SourceFile.written?, hrender]
    rw [hwritten] at h ⊢
    simp only [Option.getD_none, Option.isSome_none, Bool.false_eq_true, false_or] at h ⊢
    exact ⟨fun hcontents => h.unique hcontents, fun heq => heq ▸ h⟩
  | some text =>
    by_cases heq : text = file.contents
    · have hwritten : file.written? = none := by simp [SourceFile.written?, hrender, heq]
      rw [hwritten] at h ⊢
      simp only [Option.getD_none, Option.getD_some, Option.isSome_none, Bool.false_eq_true,
        false_or] at h ⊢
      rw [heq]
      exact ⟨fun hcontents => h.unique hcontents, fun heq => heq ▸ h⟩
    · have hwritten : file.written? = some text := by
        simp [SourceFile.written?, hrender, heq]
      rw [hwritten] at h ⊢
      simpa using h

namespace MigrationRun

open Job

variable {settings : Settings} {files : List SourceFile} {before after : Workspace}
  (run : MigrationRun tools settings before files after)

/-- The files that are returned are the loaded ones, edited, where the renames have taken
them. -/
theorem isEdited (tree : run.start.disk.IsTree) :
    List.Forall₂ (fun source file =>
      file.path = FileRename.placeAfter run.renames source.path ∧
        SourceFile.IsEdited run.renames settings.replacements source file) run.loaded files := by
  obtain ⟨found, hdone, hcarries, hedited⟩ := run.exists_carries tree
  have hrenamed : List.Forall₂ (fun source renamed =>
      renamed.path = FileRename.placeAfter run.renames source.path ∧
        RenameRule.applyAll (run.renames.flatMap FileRename.rules) source.contents =
          .ok renamed.contents) run.loaded run.renamed := by
    have hrecords := forall₂_carryIntoContents hedited
    rw [hcarries.files, Registry.ofFiles, List.map_map, List.forall₂_map_left_iff, hdone]
      at hrecords
    refine hrecords.imp fun source renamed h => ?_
    obtain ⟨text, htext, rfl⟩ := h
    rw [Function.comp_apply, SourceFile.contents_renamed] at htext
    exact ⟨source.path_renamed run.renames, htext⟩
  -- Replacing, naming and linking leave each file where it is.
  have hplaced : files.map SourceFile.placed = run.renamed.map fun renamed =>
      (renamed.path, Replacement.applyAll settings.replacements renamed.contents) := by
    rw [map_of_returns_resolve (fun _ _ => rfl) run.resolves]
    simp [assignNamespaces, applyReplacements, SourceFile.placed, Function.comp_def]
  have hfiles : List.Forall₂ (fun source placed =>
      placed.1 = FileRename.placeAfter run.renames source.path ∧ ∃ text,
        RenameRule.applyAll (run.renames.flatMap FileRename.rules) source.contents = .ok text ∧
          placed.2 = Replacement.applyAll settings.replacements text)
      run.loaded (files.map SourceFile.placed) := by
    rw [hplaced, List.forall₂_map_right_iff]
    exact hrenamed.imp fun source renamed h => ⟨h.1, renamed.contents, h.2, rfl⟩
  rwa [List.forall₂_map_right_iff] at hfiles

/-- Renaming files leaves the loaded texts in them. -/
theorem stores_ready (tree : run.start.disk.IsTree)
    (hencoding : tools.codec? settings.encoding = some Encoding.latin1.codec)
    {source : SourceFile} (hsource : source ∈ run.loaded) :
    run.ready.disk.Stores (FileRename.placeAfter run.renames source.path) source.contents := by
  obtain ⟨found, hdone, hcarries, -⟩ := run.exists_carries tree
  rw [← hdone]
  refine hcarries.stores (fun _ => isReady_of_mem_plan tree run.loads) ?_
  exact ((stores_of_returns_loadProject tree hencoding run.loads).2 source hsource).1

end MigrationRun

/-! ## Edits on the disk -/

namespace Job

/-- After files were persisted, each of them holds the text that is written for it, or else what
it held before. -/
theorem Persists.stores {encoding : Text} {files : List SourceFile} {before after : Workspace}
    (h : Persists tools encoding files before after)
    (hencoding : tools.codec? encoding = some Encoding.latin1.codec)
    (hpaths : (files.map (·.path)).Nodup)
    (hfiles : ∀ file ∈ files, before.disk.NamesFile file.path) {file : SourceFile}
    (hfile : file ∈ files) {held : Text} (hheld : before.disk.Stores file.path held) :
    after.disk.Stores file.path (file.written?.getD held) := by
  obtain ⟨hanchor, bytes, hget, hdecode⟩ := hheld
  rw [file.written?_eq_render]
  cases hrender : file.render with
  | none =>
    refine ⟨hanchor, bytes, ?_, hdecode⟩
    rw [h.kept file.path.names fun other hother hrendered hnames => hrendered ?_, hget]
    have hpath := (hfiles other hother).eq_of_names (hfiles file hfile) hnames
    rw [List.inj_on_of_nodup_map hpaths hother hfile hpath, hrender]
  | some text =>
    obtain ⟨found, written, hfound, hencode, hwritten⟩ := h.written file hfile text hrender
    rw [hencoding, Option.some.injEq] at hfound
    subst hfound
    exact ⟨hanchor, written, hwritten, Encoding.latin1_encode_eq_ok_iff.mp hencode⟩

/-- After a migration that returns, take a file as it was loaded and as it is returned.
Its contents are the loaded ones edited by the rename rules and the replacements. The
disk holds the written text, or else what was there before persisting: the loaded
contents, unless the manifest is a link to the file. So it holds the rendered text, or
the contents where there is none, exactly if a text was written or the edits changed
nothing. -/
theorem holdsText_migrate_iff {settings : Settings} {files : List SourceFile}
    {before after : Workspace} (tree : before.disk.IsTree)
    (hencoding : tools.codec? settings.encoding = some Encoding.latin1.codec)
    (h : (migrate tools settings).Returns before files after) :
    ∃ run : MigrationRun tools settings before files after,
      List.Forall₂ (fun source file =>
        SourceFile.IsEdited run.renames settings.replacements source file ∧
        ∃ held, (held = source.contents ∨
            after.disk.locate true Manifest.path = .ok (.inside file.path.names)) ∧
          after.disk.HoldsText file.path (file.written?.getD held) ∧
          (after.disk.HoldsText file.path (file.render.getD file.contents) ↔
            file.written?.isSome = true ∨ held = file.contents)) run.loaded files := by
  obtain ⟨run⟩ := nonempty_migrationRun h
  have treeStart := run.isTree_start tree
  have hedited := run.isEdited treeStart
  have hmanifest := run.writesAt_manifest treeStart
  have hwrites := run.writesAt treeStart
  obtain ⟨hpaths, hready⟩ := run.namesFile treeStart
  have hlinked : ∀ file ∈ files, run.linked.disk.NamesFile file.path :=
    fun file hfile => hmanifest.namesFile (hready file hfile)
  obtain ⟨-, hpersists⟩ :=
    (persists_of_persist settings.encoding hmanifest.tree hpaths hlinked).1 _ _ run.persists
  refine ⟨run, List.forall₂_iff_zip.mpr ⟨hedited.length_eq, fun {source file} hmem => ?_⟩⟩
  obtain ⟨hpath, hsource⟩ := List.forall₂_zip hedited hmem
  obtain ⟨hloaded, hfile⟩ := List.of_mem_zip hmem
  have hstored := run.stores_ready treeStart hencoding hloaded
  rw [← hpath] at hstored
  obtain ⟨held, hheld, hcause⟩ := hmanifest.stores hstored
  have hfinal := hpersists.stores hencoding hpaths hlinked hfile hheld
  rw [← run.after_disk] at hfinal
  have hholds := hfinal.holdsText hwrites.tree
  exact ⟨hsource, held, hcause.imp_right (hwrites.walks _ _ _), hholds,
    file.holdsText_rendered_iff hholds⟩

/-- A project with a class file and a template, both with a text that is to be
replaced. -/
def draftProject : Workspace where
  root := ⟨[], []⟩
  disk.entries :=
    [(["Page.php".toList], .file [60, 63, 112, 104, 112, 32, 111, 108, 100, 40, 41, 59]),
      (["Page.phtml".toList], .file [111, 108, 100])]

/-- Settings that replace `old` by `new`. -/
def draftSettings : Settings := { rootNamespace := "App", replacements := [⟨"old", "new"⟩] }

/-- The files of the draft project after its migration. -/
def draftFiles : List SourceFile :=
  [⟨⟨[], ["Page.php".toList]⟩, "Page", "<?php new();", some "App", []⟩,
    ⟨⟨[], ["Page.phtml".toList]⟩, "Page", "new", some "App", []⟩]

theorem returns_migrate_draft :
    (migrate .standard draftSettings).Returns draftProject draftFiles
      ((migrate .standard draftSettings).outcome draftProject).2 :=
  returns_of_toOption (by decide +kernel)

theorem holdsText_migrate_draft :
    draftProject.disk.IsTree ∧ Tools.standard.codec? draftSettings.encoding = some Encoding.latin1.codec ∧
      ∃ run : MigrationRun .standard draftSettings draftProject draftFiles
          ((migrate .standard draftSettings).outcome draftProject).2,
        List.Forall₂ (fun source file =>
          SourceFile.IsEdited run.renames draftSettings.replacements source file ∧
          ∃ held, (held = source.contents ∨
              ((migrate .standard draftSettings).outcome draftProject).2.disk.locate true Manifest.path =
                .ok (.inside file.path.names)) ∧
            ((migrate .standard draftSettings).outcome draftProject).2.disk.HoldsText file.path
              (file.written?.getD held) ∧
            (((migrate .standard draftSettings).outcome draftProject).2.disk.HoldsText file.path
                (file.render.getD file.contents) ↔
              file.written?.isSome = true ∨ held = file.contents)) run.loaded draftFiles :=
  ⟨by decide, Tools.codec?_standard (by decide),
    holdsText_migrate_iff (by decide) (Tools.codec?_standard (by decide)) returns_migrate_draft⟩

/-- Not every edit reaches the disk: the template of the draft project is returned with
the replaced text, and its file still holds the old one. -/
theorem not_forall_holdsText_migrate :
    ¬ ∀ (settings : Settings) (files : List SourceFile) (before after : Workspace),
      before.disk.IsTree →
        Tools.standard.codec? settings.encoding = some Encoding.latin1.codec →
        (migrate .standard settings).Returns before files after →
          ∀ file ∈ files, after.disk.HoldsText file.path (file.render.getD file.contents) := by
  intro h
  have hpage : (⟨⟨[], ["Page.phtml".toList]⟩, "Page", "new", some "App", []⟩ : SourceFile) ∈
      draftFiles := by decide
  have hnew := h draftSettings draftFiles draftProject _ (by decide)
    (Tools.codec?_standard (by decide)) returns_migrate_draft _ hpage
  have hold : ((migrate .standard draftSettings).outcome draftProject).2.disk.HoldsText
      ⟨[], ["Page.phtml".toList]⟩ "old" := ⟨[111, 108, 100], by decide, by decide +kernel⟩
  exact absurd (hold.unique hnew) (by decide)

end Job

end Namespacer
