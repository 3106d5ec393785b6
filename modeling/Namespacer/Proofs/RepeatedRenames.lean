import Namespacer.Proofs.PascalStability
import Namespacer.Proofs.SettledFolders
import Namespacer.StandardTools

/-!
# Renaming again changes nothing

Folders and files that could not be renamed because something was in their way must not be
renamed when it is tried again, although the first attempt has changed what is there. On a
disk of files and directories with ASCII names this is so: what has a new name keeps it
(`pascalCase_pascalCase`), and what was in the way still is.

* `FileRename.ofPath?_newPath`: there is no plan for a file that was renamed.
* `RenameRun.Carries.blocked`: the plans that are left are for files whose new paths are taken.
* `exists_carryOut_of_held`: such plans are not carried out.
* `Job.renames_nothing_again`: neither folders nor files are renamed a second time.
-/

namespace Namespacer

variable {tools : Tools}

open Text

namespace Disk

/-- A disk of files and directories with ASCII names. -/
structure IsPlain (disk : Disk) : Prop where
  tree : disk.IsTree
  noLinks : ∀ entry ∈ disk.entries, ∀ target, entry.2 ≠ .link target
  ascii : ∀ entry ∈ disk.entries, ∀ name ∈ entry.1, IsAscii name

namespace IsPlain

variable {disk : Disk}

theorem isAscii_of_get? (h : disk.IsPlain) {location : Location} {entry : Entry}
    (hget : disk.get? location = some entry) : ∀ name ∈ location, IsAscii name :=
  forall_name_of_get? h.ascii hget

theorem hasStableNames (h : disk.IsPlain) : disk.HasStableNames :=
  fun _ _ hget name hname => pascalCase_pascalCase (h.isAscii_of_get? hget name hname)

theorem hasNoLinks (h : disk.IsPlain) : disk.HasNoLinks := by
  intro location target hget
  by_cases hnil : location = []
  · rw [hnil, get?_nil] at hget
    cases hget
  · exact h.noLinks _ (mem_of_get? hnil hget) target rfl

end IsPlain

theorem FileMoves.hasNoLinks {before after : Disk} {renames : List FileRename}
    (h : before.FileMoves renames after) (hlinks : before.HasNoLinks) : after.HasNoLinks := by
  induction h with
  | nil disk => exact hlinks
  | cons hmoves _ ih =>
    refine ih fun location target hget => ?_
    rw [hmoves.get?_eq] at hget
    split at hget
    · exact hlinks _ target hget
    · split at hget
      · cases hget
      · exact hlinks location target hget

end Disk

/-! ## Plans after a run -/

theorem Path.isAscii_stem {path : Path} (h : ∀ name ∈ path.names, IsAscii name) :
    IsAscii path.stem := by
  have hname : IsAscii path.name := by
    rw [Path.name, List.getLastD_eq_getLast?]
    cases hlast : path.names.getLast? with
    | none => simp [IsAscii]
    | some name => exact h name (List.mem_of_getLast? hlast)
  intro c hc
  refine hname c ?_
  rw [← path.stem_append_suffix]
  exact List.mem_append_left _ hc

namespace FileRename

theorem newName_eq_pascalCase_stem {path : Path} {plan : FileRename}
    (h : ofPath? path = some plan) : plan.newName = pascalCase path.stem := by
  obtain ⟨-, -, rfl⟩ := ofPath?_eq_some_iff.mp h
  rfl

/-- There is no plan for a file that was renamed. -/
theorem ofPath?_newPath {path : Path} {plan : FileRename} (h : ofPath? path = some plan)
    (hsuffix : (languageFor? (lower path.suffix)).isSome = true) (hascii : IsAscii path.stem) :
    ofPath? plan.newPath = none := by
  have hstem : plan.newPath.stem = pascalCase path.stem :=
    (stem_of_ofPath? h hsuffix).2.1.trans (newName_eq_pascalCase_stem h)
  have hpascal : isPascalCase plan.newPath.stem = true := by
    rw [isPascalCase, beq_iff_eq, hstem, pascalCase_pascalCase hascii]
  rw [ofPath?, if_pos (by simp [hpascal])]

theorem plan_congr {files others : List SourceFile}
    (h : files.map (·.path) = others.map (·.path)) : plan files = plan others := by
  have hplan (files : List SourceFile) : plan files = (files.map (·.path)).filterMap ofPath? := by
    rw [List.filterMap_map]
    rfl
  rw [hplan, hplan, h]

end FileRename

/-- After a run there are plans only for files that were to be renamed and were not. They are
still ready, and their new paths are taken. -/
theorem RenameRun.Carries.blocked {run : RenameRun} {files : List SourceFile}
    {before after : Disk}
    (h : run.Carries (FileRename.plan files) (Registry.ofFiles files) before after)
    (hready : ∀ plan ∈ FileRename.plan files, plan.IsReady before)
    (hrenamed : ∀ plan ∈ FileRename.plan files, FileRename.ofPath? plan.newPath = none) :
    ∀ plan ∈ FileRename.plan run.files,
      plan.IsReady after ∧ after.get? plan.newPath.names ≠ none := by
  intro plan hplan
  obtain ⟨record, hrecord, hofPath⟩ := FileRename.mem_plan.mp hplan
  have hpath := List.mem_map_of_mem (f := fun file => file.path) hrecord
  rw [h.map_path, List.mem_map] at hpath
  obtain ⟨file, hfile, hpath⟩ := hpath
  rw [← hpath, FileRename.placeAfter] at hofPath
  cases hof : FileRename.of? run.done file.path with
  | some rename =>
    have hrename := h.done.subset (List.mem_of_find?_eq_some hof)
    simp only [hof, hrenamed rename hrename] at hofPath
    cases hofPath
  | none =>
    simp only [hof] at hofPath
    have hmem : plan ∈ FileRename.plan files := FileRename.mem_plan.mpr ⟨file, hfile, hofPath⟩
    have hplan := hready plan hmem
    refine ⟨⟨hplan.relative, ?_, hplan.sibling, hplan.ne⟩, h.held plan hmem ?_⟩
    · obtain ⟨bytes, hget⟩ := hplan.isFile
      have hpath : Location.toPath plan.oldPath.names = file.path :=
        hplan.oldPath_eq.symm.trans (FileRename.oldPath_of_ofPath? hofPath)
      have hkept := h.keepsFiles.kept _ _ hget
      simp only [FileRename.placeAfter, hpath, hof] at hkept
      exact ⟨bytes, by rwa [FileRename.oldPath_of_ofPath? hofPath]⟩
    · -- No plan starts from a new path, because there is no plan for what is there.
      intro other hother hnames
      have hnone := hrenamed plan hmem
      obtain ⟨source, -, hsource⟩ := FileRename.mem_plan.mp hother
      rw [hplan.newPath_eq, ← hnames, ← (hready other hother).oldPath_eq,
        FileRename.oldPath_of_ofPath? hsource, hsource] at hnone
      cases hnone

/-- Plans for new paths that are taken are not carried out. -/
theorem exists_carryOut_of_held {plans : List FileRename} (registry : Registry)
    {before : Workspace} (tree : before.disk.IsTree) (hlinks : before.disk.HasNoLinks)
    (hplans : ∀ plan ∈ plans,
      plan.IsReady before.disk ∧ before.disk.get? plan.newPath.names ≠ none) :
    ∃ after, (carryOut plans registry).run before = (⟨registry.files, [], none⟩, after) ∧
      after.disk = before.disk := by
  induction plans generalizing before with
  | nil => exact ⟨before, rfl, rfl⟩
  | cons plan plans ih =>
    rw [List.forall_mem_cons] at hplans
    obtain ⟨⟨hready, hheld⟩, hrest⟩ := hplans
    rw [carryOut_cons]
    rcases Job.renameFile_cases tree hready with
      ⟨middle, hreturns, hdisk, -⟩ | ⟨middle, hreturns, hmoves⟩
    · rw [hreturns]
      rw [← hdisk] at tree hlinks hrest
      obtain ⟨after, hrun, hafter⟩ := ih tree hlinks hrest
      exact ⟨after, hrun, hafter.trans hdisk⟩
    · -- A file takes the place of nothing or of a link.
      obtain ⟨entry, hget⟩ := Option.ne_none_iff_exists'.mp hheld
      cases entry with
      | file bytes => exact absurd hget (hmoves.notFile bytes)
      | directory => exact absurd hget hmoves.notDirectory
      | link target => exact absurd hget (hlinks _ target)

theorem carryIntoContents_nil (files : List SourceFile) :
    carryIntoContents [] files = .ok files := by
  have hpure : carryIntoContents [] files = files.mapM pure := rfl
  rw [hpure, List.mapM_pure, List.map_id']
  rfl

/-! ## Both stages -/

namespace Job

/-- Renaming the files of a project again does nothing. -/
theorem exists_renameFiles_again {settings : Settings} {files : List SourceFile} {run : RenameRun}
    {before loaded after : Workspace} (hplain : before.disk.IsPlain)
    (hload : (loadProject tools settings).Returns before files loaded)
    (hrun : (renameFiles files).run loaded = (run, after)) :
    run.failure = none ∧
      ∃ last, (renameFiles run.files).run after = (⟨run.files, [], none⟩, last) ∧
        last.disk = after.disk := by
  have tree := hplain.tree
  obtain ⟨found, carried, edited, hfound, hcarries, -, hpaths⟩ := exists_renameFiles tree hload
  rw [hrun, Prod.mk.injEq] at hfound
  obtain ⟨rfl, rfl⟩ := hfound
  refine ⟨hcarries.complete, ?_⟩
  have hrenamed : ∀ plan ∈ FileRename.plan files, FileRename.ofPath? plan.newPath = none := by
    intro plan hplan
    obtain ⟨file, hfile, hofPath⟩ := FileRename.mem_plan.mp hplan
    obtain ⟨-, ⟨bytes, hget⟩, hsuffix, -⟩ := (returns_loadProject tree hload).2 file hfile
    refine FileRename.ofPath?_newPath hofPath hsuffix ?_
    exact Path.isAscii_stem (hplain.isAscii_of_get? hget)
  have hblocked := hcarries.blocked (fun plan => isReady_of_mem_plan tree hload) hrenamed
  rw [← FileRename.plan_congr hpaths] at hblocked
  obtain ⟨last, hlast, hdisk⟩ := exists_carryOut_of_held (Registry.ofFiles edited)
    hcarries.tree (hcarries.moves.hasNoLinks hplain.hasNoLinks) hblocked
  refine ⟨last, ?_, hdisk⟩
  have hfiles : (Registry.ofFiles edited).files = edited := by
    rw [Registry.files, Registry.ofFiles, List.map_map]
    exact List.map_id' _
  rw [run_renameFiles, hlast]
  simp only [hfiles, carryIntoContents_nil]

/-- On a disk of files and directories with ASCII names, renaming the folders or the files of
a project a second time renames nothing and changes neither the disk nor a record. Any
predicate may tell which folders are left alone. -/
theorem renames_nothing_again (excludes : Text → Bool) (settings : Settings)
    {before : Workspace} (hplain : before.disk.IsPlain) :
    (∀ renames after, (renameFolders excludes).Returns before renames after →
      ∃ last, (renameFolders excludes).Returns after [] last ∧ last.disk = after.disk) ∧
    ∀ files loaded run after, (loadProject tools settings).Returns before files loaded →
      (renameFiles files).run loaded = (run, after) →
        run.failure = none ∧
          ∃ last, (renameFiles run.files).run after = (⟨run.files, [], none⟩, last) ∧
            last.disk = after.disk := by
  refine ⟨fun renames after hreturns => ?_, fun files loaded run after hload hrun => ?_⟩
  · have hmoves := (returns_renameFolders hplain.tree hreturns).1
    have hsettled :=
      hasSettledFolders_of_returns_renameFolders hplain.tree hplain.hasStableNames hreturns
    exact returns_renameFolders_of_hasSettledFolders (hmoves.isTree hplain.tree)
      (hmoves.hasNoLinks hplain.tree hplain.hasNoLinks) hsettled
  · exact exists_renameFiles_again hplain hload hrun

/-- A project in which folders and files ask for names that others have or get. -/
def siblingProject : Workspace where
  root := ⟨[], []⟩
  disk.entries := [(["a-b".toList], .directory), (["a_b".toList], .directory),
    (["a_b".toList, "c".toList], .directory), (["__".toList], .directory),
    (["old_code".toList], .directory), (["old_code".toList, "x".toList], .directory),
    (["a-b.php".toList], .file [60]), (["a_b.php".toList], .file [63]),
    (["x_y.php".toList], .file []), (["XY.php".toList], .directory)]

/-- Leaves the folder of old code alone. -/
def leavesOldCode (path : Text) : Bool := path = "old_code/".toList

/-- The workspace after the folders of the project were renamed. -/
def siblingFolders : Workspace := ((renameFolders leavesOldCode).outcome siblingProject).2

/-- The workspace after the files of the project were loaded. -/
def siblingLoaded : Workspace := ((loadProject .standard plainSettings).outcome siblingProject).2

theorem isPlain_siblings : siblingProject.disk.IsPlain where
  tree := by decide
  noLinks := by simp [siblingProject]
  ascii := by simp [siblingProject, IsAscii]

/-- The folders of the project that are renamed. -/
def siblingRenames : List FolderRename :=
  [⟨["XY.php".toList], ["XYPhp".toList]⟩, ⟨["a-b".toList], ["AB".toList]⟩,
    ⟨["a_b".toList, "c".toList], ["a_b".toList, "C".toList]⟩]

theorem returns_renameFolders_siblings :
    (renameFolders leavesOldCode).Returns siblingProject siblingRenames siblingFolders :=
  returns_of_toOption (by decide)

theorem returns_loadProject_siblings :
    (loadProject .standard plainSettings).Returns siblingProject crowdedFiles siblingLoaded :=
  returns_of_toOption (by decide)

theorem renames_nothing_again_siblings :
    siblingProject.disk.IsPlain ∧
      (renameFolders leavesOldCode).Returns siblingProject siblingRenames siblingFolders ∧
      (∃ last, (renameFolders leavesOldCode).Returns siblingFolders [] last ∧
        last.disk = siblingFolders.disk) ∧
      (loadProject .standard plainSettings).Returns siblingProject crowdedFiles siblingLoaded ∧
      ∃ run after, (renameFiles crowdedFiles).run siblingLoaded = (run, after) ∧
        run.failure = none ∧
          ∃ last, (renameFiles run.files).run after = (⟨run.files, [], none⟩, last) ∧
            last.disk = after.disk := by
  obtain ⟨hfolders, hfiles⟩ := renames_nothing_again leavesOldCode plainSettings isPlain_siblings
  refine ⟨isPlain_siblings, returns_renameFolders_siblings,
    hfolders _ _ returns_renameFolders_siblings, returns_loadProject_siblings, _, _, rfl, ?_⟩
  exact hfiles _ _ _ _ returns_loadProject_siblings rfl

end Job

end Namespacer
