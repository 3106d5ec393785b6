import Namespacer.Proofs.StoredFiles
import Namespacer.Proofs.PascalNames
import Namespacer.Proofs.PathNames
import Namespacer.Proofs.Rewriting
import Namespacer.StandardTools
import Mathlib.Data.List.Forall2

/-!
# Renaming files loses nothing

Several files can ask for one new name, and what is at a new name can be a file, a
directory or a link, or be moved away by an earlier rename. A file is renamed only if nothing
else is found at its new path, so a rename takes the place of nothing or of a link.

* `Disk.KeepsFiles`: each file of one disk is found on another one at a place of its own,
  with its bytes; there are no other files, and the directories are the same.
* `Job.renameFile_cases`: what renaming one file does, and that it does not fail.
* `RenameRun.Carries`, `exists_carryOut`: what carrying out all plans does.
* `Job.keepsFiles_renameFiles`: renaming the files of a project keeps its files, and the
  registry follows them.
-/

namespace Namespacer

variable {tools : Tools}

namespace Disk

/-! ## Disks with the same files -/

/-- Every file of a disk is found on another one, at a place that it shares with no other;
the other disk has no more files, and the same directories. -/
structure KeepsFiles (before after : Disk) (place : Location → Location) : Prop where
  kept : ∀ location bytes, before.get? location = some (.file bytes) →
    after.get? (place location) = some (.file bytes)
  apart : ∀ a b bytes bytes', before.get? a = some (.file bytes) →
    before.get? b = some (.file bytes') → place a = place b → a = b
  onto : ∀ location bytes, after.get? location = some (.file bytes) →
    ∃ source, before.get? source = some (.file bytes) ∧ place source = location
  directories : ∀ location,
    after.get? location = some .directory ↔ before.get? location = some .directory

namespace KeepsFiles

theorem refl (disk : Disk) : disk.KeepsFiles disk id where
  kept _ _ h := h
  apart _ _ _ _ _ _ h := h
  onto location _ h := ⟨location, h, rfl⟩
  directories _ := .rfl

theorem trans {first middle last : Disk} {place place' : Location → Location}
    (h : first.KeepsFiles middle place) (h' : middle.KeepsFiles last place') :
    first.KeepsFiles last (place' ∘ place) where
  kept location bytes hget := h'.kept _ _ (h.kept _ _ hget)
  apart a b bytes bytes' ha hb heq :=
    h.apart a b _ _ ha hb (h'.apart _ _ _ _ (h.kept _ _ ha) (h.kept _ _ hb) heq)
  onto location bytes hget := by
    obtain ⟨middle, hmiddle, rfl⟩ := h'.onto location bytes hget
    obtain ⟨source, hsource, rfl⟩ := h.onto middle bytes hmiddle
    exact ⟨source, hsource, rfl⟩
  directories location := (h'.directories location).trans (h.directories location)

end KeepsFiles

/-! ## Moving one file -/

/-- What is found after the entry at a location, with nothing below it, has moved. -/
theorem IsTree.get?_erase_move {disk : Disk} (tree : disk.IsTree) {old new : Location}
    {entry : Entry} (hmove : disk.CanMove old new) (hentry : disk.get? old = some entry)
    (hfile : entry ≠ .directory) (location : Location) :
    ((disk.erase new).move old new).get? location =
      if location = new then some entry else if location = old then none
      else disk.get? location := by
  have hdirectory : disk.get? old ≠ some .directory := by simpa [hentry] using hfile
  have hbelow := tree.eq_of_prefix hdirectory
  have hold : old ≠ [] := by
    rintro rfl
    exact hmove.apart List.nil_prefix
  -- Only the entry at the old location is found elsewhere than before.
  have hsource : location ≠ [] → location ≠ new → ∀ found,
      ((disk.erase new).move old new).get? location = some found →
        location ≠ old ∧ disk.get? location = some found := by
    intro hnil hnew found hget
    obtain ⟨source, hmem, hmoved⟩ := mem_move.mp (mem_of_get? hnil hget)
    rw [Disk.erase, List.mem_filter] at hmem
    by_cases hprefix : old <+: source
    · have heq : source = old := hbelow _ hmem.1 hprefix
      rw [heq] at hmoved
      have hself := Location.moved_append old new []
      rw [List.append_nil, List.append_nil, hmoved] at hself
      exact absurd hself hnew
    · rw [Location.moved_of_not_prefix new hprefix] at hmoved
      rw [hmoved] at hmem hprefix
      refine ⟨?_, tree.get?_of_mem hmem.1⟩
      rintro rfl
      exact hprefix List.prefix_rfl
  split
  · rename_i heq
    rw [heq]
    exact tree.get?_erase_move_new hmove hentry
  · rename_i hnew
    split
    · rename_i heq
      rw [Option.eq_none_iff_forall_ne_some]
      intro found hget
      exact (hsource (heq ▸ hold) hnew found hget).1 heq
    · rename_i hne
      by_cases hnil : location = []
      · simp [hnil]
      have hapart (found : Entry) (hget : disk.get? location = some found) :
          ¬ old <+: location := by
        intro hprefix
        exact hne (hbelow _ (mem_of_get? hnil hget) hprefix)
      refine Option.ext fun found => ⟨fun hget => (hsource hnil hnew found hget).2, ?_⟩
      intro hget
      exact tree.get?_erase_move_other hmove (hapart found hget) hnew hget

/-- A file has moved to a location where no file and no directory was, and nothing else has
changed. -/
structure MovesFile (before after : Disk) (old new : Location) : Prop where
  tree : after.IsTree
  around : after.around = before.around
  source : ∃ bytes, before.get? old = some (.file bytes)
  ne : old ≠ new
  notFile : ∀ bytes, before.get? new ≠ some (.file bytes)
  notDirectory : before.get? new ≠ some .directory
  get?_eq : ∀ location, after.get? location =
    if location = new then before.get? old else if location = old then none
    else before.get? location

namespace MovesFile

variable {before after : Disk} {old new : Location}

theorem get?_of_ne (h : before.MovesFile after old new) {location : Location}
    (hold : location ≠ old) (hnew : location ≠ new) :
    after.get? location = before.get? location := by
  rw [h.get?_eq, if_neg hnew, if_neg hold]

theorem keepsFiles (h : before.MovesFile after old new) :
    before.KeepsFiles after fun location => if location = old then new else location := by
  have hother : ∀ location bytes, before.get? location = some (.file bytes) → location ≠ new := by
    rintro location bytes hget rfl
    exact h.notFile bytes hget
  refine ⟨?_, ?_, ?_, ?_⟩
  · intro location bytes hget
    by_cases hlocation : location = old
    · rw [if_pos hlocation, h.get?_eq, if_pos rfl, ← hlocation, hget]
    · rw [if_neg hlocation, h.get?_of_ne hlocation (hother _ _ hget), hget]
  · intro a b bytes bytes' ha hb heq
    by_cases hA : a = old
    · by_cases hB : b = old
      · rw [hA, hB]
      · rw [if_pos hA, if_neg hB] at heq
        exact absurd heq.symm (hother _ _ hb)
    · by_cases hB : b = old
      · rw [if_neg hA, if_pos hB] at heq
        exact absurd heq (hother _ _ ha)
      · rwa [if_neg hA, if_neg hB] at heq
  · intro location bytes hget
    by_cases hnew : location = new
    · rw [h.get?_eq, if_pos hnew] at hget
      exact ⟨old, hget, by rw [if_pos rfl, hnew]⟩
    · have hold : location ≠ old := by
        rintro rfl
        rw [h.get?_eq, if_neg hnew, if_pos rfl] at hget
        cases hget
      rw [h.get?_of_ne hold hnew] at hget
      exact ⟨location, hget, if_neg hold⟩
  · intro location
    obtain ⟨bytes, hfile⟩ := h.source
    by_cases hnew : location = new
    · rw [h.get?_eq, if_pos hnew, hfile, hnew]
      simp [h.notDirectory]
    · by_cases hold : location = old
      · rw [h.get?_eq, if_neg hnew, if_pos hold, hold, hfile]
        simp
      · rw [h.get?_of_ne hold hnew]

end MovesFile

/-- A chain of moves of single files, each from the old path of a rename to its new path. -/
inductive FileMoves : Disk → List FileRename → Disk → Prop where
  | nil (disk : Disk) : FileMoves disk [] disk
  | cons {disk middle after : Disk} {rename : FileRename} {renames : List FileRename}
      (h : disk.MovesFile middle rename.oldPath.names rename.newPath.names)
      (rest : FileMoves middle renames after) : FileMoves disk (rename :: renames) after

theorem FileMoves.eq_of_nil {before after : Disk} (h : before.FileMoves [] after) :
    after = before := by
  cases h
  rfl

theorem FileMoves.isTree {before after : Disk} {renames : List FileRename}
    (h : before.FileMoves renames after) (tree : before.IsTree) : after.IsTree := by
  induction h with
  | nil disk => exact tree
  | cons hmoves _ ih => exact ih hmoves.tree

theorem FileMoves.around_eq {before after : Disk} {renames : List FileRename}
    (h : before.FileMoves renames after) : after.around = before.around := by
  induction h with
  | nil disk => rfl
  | cons hmoves _ ih => exact ih.trans hmoves.around

/-- What is at no old path of a chain of moves stays there, or a file takes its place. -/
theorem FileMoves.get?_ne_none {before after : Disk} {renames : List FileRename}
    (h : before.FileMoves renames after) {location : Location}
    (hold : ∀ rename ∈ renames, rename.oldPath.names ≠ location)
    (hheld : before.get? location ≠ none) : after.get? location ≠ none := by
  induction h with
  | nil disk => exact hheld
  | cons hmoves _ ih =>
    rw [List.forall_mem_cons] at hold
    refine ih hold.2 ?_
    rw [hmoves.get?_eq, if_neg hold.1.symm]
    split
    · obtain ⟨bytes, hfile⟩ := hmoves.source
      simp [hfile]
    · exact hheld

/-- A file is renamed to another place where no directory is by moving it there. -/
theorem IsTree.rename_file {disk : Disk} (tree : disk.IsTree) {old new : Location} {bytes : Bytes}
    (hold : disk.get? old = some (.file bytes)) (hplace : disk.IsPlace new) (hne : old ≠ new)
    (hdirectory : disk.get? new ≠ some .directory) :
    disk.CanMove old new ∧
      disk.rename ⟨[], old⟩ ⟨[], new⟩ = .ok ((disk.erase new).move old new) := by
  have hrename : disk.rename ⟨[], old⟩ ⟨[], new⟩ = .ok ((disk.erase new).move old new) := by
    rw [rename_eq (tree.locate_file hold false) (tree.locate_place hplace (by simp)),
      Disk.renameAt, hold]
    simp only [if_neg hne]
    rfl
  refine ⟨?_, hrename⟩
  have hcases := tree.rename_cases (tree.locate_file hold false)
    (tree.locate_place hplace (by simp)) hrename
  exact (hcases.resolve_left fun h => hne h.1).1

/-- At a path that names a place something else than the entry at another location is found
unless the place is free or holds a link. -/
theorem IsTree.holdsOther_of_get? {disk : Disk} (tree : disk.IsTree) {new other : Location}
    {entry : Entry} (hne : other ≠ new) (hget : disk.get? new = some entry)
    (hlink : ∀ target, entry ≠ .link target) :
    disk.holdsOther ⟨[], new⟩ (.inside other) = true := by
  have hlocate : disk.locate true ⟨[], new⟩ = .ok (.inside new) := by
    refine tree.locate_place (tree.isPlace hget) fun _ target htarget => hlink target ?_
    exact Option.some.inj (hget.symm.trans htarget)
  simp [holdsOther, find?, hlocate, hget, Ne.symm hne]

theorem IsTree.holdsOther_of_free {disk : Disk} (tree : disk.IsTree) {new : Location}
    (hplace : disk.IsPlace new) (hfree : disk.get? new = none) (other : Location) :
    disk.holdsOther ⟨[], new⟩ (.inside other) = false := by
  have hlocate : disk.locate true ⟨[], new⟩ = .ok (.inside new) :=
    tree.locate_place hplace (by simp [hfree])
  simp [holdsOther, find?, hlocate, hfree]

end Disk

/-! ## Renaming one file -/

/-- A plan that is to be carried out on a disk: its file is there, and the new path is
another one in the same directory. -/
structure FileRename.IsReady (plan : FileRename) (disk : Disk) : Prop where
  relative : plan.oldPath.anchor = []
  isFile : ∃ bytes, disk.get? plan.oldPath.names = some (.file bytes)
  sibling : ∃ name, plan.newPath = plan.oldPath.withName name ∧ Disk.IsEntryName name
  ne : plan.oldPath.names ≠ plan.newPath.names

namespace FileRename.IsReady

variable {plan : FileRename} {disk : Disk}

theorem oldPath_eq (h : plan.IsReady disk) : plan.oldPath = ⟨[], plan.oldPath.names⟩ := by
  rw [← h.relative]

theorem newPath_eq (h : plan.IsReady disk) : plan.newPath = ⟨[], plan.newPath.names⟩ := by
  obtain ⟨name, hname, -⟩ := h.sibling
  rw [hname, ← h.relative]
  rfl

theorem isPlace (h : plan.IsReady disk) (tree : disk.IsTree) : disk.IsPlace plan.newPath.names := by
  obtain ⟨bytes, hget⟩ := h.isFile
  obtain ⟨name, hname, hentry⟩ := h.sibling
  rw [hname]
  exact (tree.isPlace hget).withName hentry

/-- A plan stays ready when the file of another one has moved. -/
theorem movesFile {disk' : Disk} {old new : Location} (h : plan.IsReady disk)
    (hmoves : disk.MovesFile disk' old new) (hne : plan.oldPath.names ≠ old) :
    plan.IsReady disk' where
  relative := h.relative
  isFile := by
    obtain ⟨bytes, hget⟩ := h.isFile
    refine ⟨bytes, ?_⟩
    rw [hmoves.get?_of_ne hne fun heq => hmoves.notFile bytes (heq ▸ hget), hget]
  sibling := h.sibling
  ne := h.ne

end FileRename.IsReady

namespace Job

theorem returns_rename {oldPath newPath : Path} {before : Workspace} {disk : Disk}
    (h : before.disk.rename oldPath newPath = .ok disk) :
    ∃ after, (rename oldPath newPath).Returns before () after ∧ after.disk = disk := by
  refine ⟨{ before with disk, changes := before.changes ++ [.renamed oldPath newPath] }, ?_, rfl⟩
  rw [rename, returns_bind]
  refine ⟨_, _, returns_disk.mpr ⟨rfl, rfl⟩, ?_⟩
  rw [h]
  exact returns_modify.mpr rfl

/-- A file is left alone if something else is found at its new path, and renamed if not. -/
theorem outcome_renameFile {plan : FileRename} {before : Workspace} (tree : before.disk.IsTree)
    (hready : plan.IsReady before.disk) :
    (renameFile plan).outcome before =
      if before.disk.holdsOther plan.newPath (.inside plan.oldPath.names) then
        (do
          log (.renameTargetExists plan.oldPath.toText plan.newPath.toText)
          pure false : Job Bool).outcome before
      else
        (do
          rename plan.oldPath plan.newPath
          pure true : Job Bool).outcome before := by
  have hdisk : disk.outcome before = (.ok before.disk, before) := rfl
  have hstatus : before.disk.status plan.oldPath = .ok (.inside plan.oldPath.names) := by
    obtain ⟨bytes, hget⟩ := hready.isFile
    rw [hready.oldPath_eq, Disk.status, tree.locate_file hget]
    simp [hget, bind, Except.bind, pure, Except.pure]
  rw [renameFile, outcome_bind, hdisk]
  simp only [hstatus]
  by_cases hholds : before.disk.holds plan.newPath = true
  · simp only [hholds, if_true]
    split <;> rfl
  · have hother : before.disk.holdsOther plan.newPath (.inside plan.oldPath.names) = false := by
      rw [Disk.holds, Bool.not_eq_true, Option.isSome_eq_false_iff, Option.isNone_iff_eq_none]
        at hholds
      rw [Disk.holdsOther, hholds]
    simp only [hholds, hother]
    rfl

/-- What renaming a file that is ready does: nothing, because something is in its place, or
a move. It does not fail. -/
theorem renameFile_cases {plan : FileRename} {before : Workspace} (tree : before.disk.IsTree)
    (hready : plan.IsReady before.disk) :
    (∃ after, (renameFile plan).Returns before false after ∧ after.disk = before.disk ∧
      before.disk.get? plan.newPath.names ≠ none) ∨
    ∃ after, (renameFile plan).Returns before true after ∧
      before.disk.MovesFile after.disk plan.oldPath.names plan.newPath.names := by
  have hplace := hready.isPlace tree
  have hnewPath := hready.newPath_eq
  have houtcome := outcome_renameFile tree hready
  by_cases hother : before.disk.holdsOther plan.newPath (.inside plan.oldPath.names) = true
  · rw [if_pos hother] at houtcome
    refine .inl ⟨_, houtcome, rfl, fun hfree => ?_⟩
    rw [hnewPath, tree.holdsOther_of_free hplace hfree] at hother
    cases hother
  · rw [if_neg hother] at houtcome
    have hlink : ∀ entry, before.disk.get? plan.newPath.names = some entry →
        ∃ target, entry = .link target := by
      intro entry hget
      by_contra hlink
      rw [hnewPath] at hother
      exact hother (tree.holdsOther_of_get? hready.ne hget (not_exists.mp hlink))
    have hnotFile : ∀ bytes, before.disk.get? plan.newPath.names ≠ some (.file bytes) := by
      intro bytes hget
      obtain ⟨target, htarget⟩ := hlink _ hget
      cases htarget
    have hnotDirectory : before.disk.get? plan.newPath.names ≠ some .directory := by
      intro hget
      obtain ⟨target, htarget⟩ := hlink _ hget
      cases htarget
    obtain ⟨bytes, hfile⟩ := hready.isFile
    obtain ⟨hmove, hrename⟩ := tree.rename_file hfile hplace hready.ne hnotDirectory
    rw [← hready.oldPath_eq, ← hnewPath] at hrename
    obtain ⟨after, hreturns, hafter⟩ := returns_rename hrename
    refine .inr ⟨after, ?_, ?_⟩
    · exact houtcome.trans (returns_bind.mpr ⟨(), after, hreturns, returns_pure.mpr ⟨rfl, rfl⟩⟩)
    · rw [hafter]
      refine ⟨tree.erase_move hmove, rfl, ⟨bytes, hfile⟩, hready.ne, hnotFile, hnotDirectory, ?_⟩
      intro location
      rw [tree.get?_erase_move hmove hfile (by simp), hfile]

end Job

/-! ## Carrying out all plans -/

/-- The rename of the file at a path, if it is one of some renames. -/
def FileRename.of? (renames : List FileRename) (path : Path) : Option FileRename :=
  renames.find? fun rename => rename.oldPath = path

/-- Where the file at a path is after some renames. -/
def FileRename.placeAfter (renames : List FileRename) (path : Path) : Path :=
  match of? renames path with
  | some rename => rename.newPath
  | none => path

/-- The record of a file that was at a path, after some renames. -/
def SourceFile.renamed (renames : List FileRename) (path : Path) (file : SourceFile) :
    SourceFile :=
  match FileRename.of? renames path with
  | some rename => { file with path := rename.newPath, typeName := rename.newName }
  | none => file

namespace SourceFile

theorem path_renamed (renames : List FileRename) (file : SourceFile) :
    (file.renamed renames file.path).path = FileRename.placeAfter renames file.path := by
  rw [renamed, FileRename.placeAfter]
  split <;> rfl

theorem contents_renamed (renames : List FileRename) (path : Path) (file : SourceFile) :
    (file.renamed renames path).contents = file.contents := by
  rw [renamed]
  split <;> rfl

end SourceFile

namespace FileRename

/-- Renames in their directories do not take a file out of the project. -/
theorem anchor_placeAfter {renames : List FileRename} {disk : Disk} {path : Path}
    (h : ∀ rename ∈ renames, rename.IsReady disk) (hpath : path.anchor = []) :
    (placeAfter renames path).anchor = [] := by
  rw [placeAfter]
  split
  · rename_i rename hrename
    exact congrArg Path.anchor (h rename (List.mem_of_find?_eq_some hrename)).newPath_eq
  · exact hpath

theorem of?_cons_self (rename : FileRename) (renames : List FileRename) :
    of? (rename :: renames) rename.oldPath = some rename := by
  simp [of?]

theorem of?_cons_of_ne {rename : FileRename} {path : Path} (h : rename.oldPath ≠ path)
    (renames : List FileRename) : of? (rename :: renames) path = of? renames path := by
  simp [of?, h]

theorem of?_eq_none {renames : List FileRename} {path : Path}
    (h : ∀ rename ∈ renames, rename.oldPath ≠ path) : of? renames path = none := by
  simpa [of?] using h

/-- A first rename takes the file at its old path to where no other one starts. -/
theorem names_placeAfter_cons {rename : FileRename} {renames : List FileRename}
    (hold : rename.oldPath = Location.toPath rename.oldPath.names)
    (hnew : of? renames (Location.toPath rename.newPath.names) = none) (location : Location) :
    (placeAfter (rename :: renames) location.toPath).names =
      (placeAfter renames (Location.toPath
        (if location = rename.oldPath.names then rename.newPath.names else location))).names := by
  simp only [placeAfter]
  by_cases hlocation : location = rename.oldPath.names
  · have hpath : location.toPath = rename.oldPath := by rw [hlocation, ← hold]
    rw [hpath, if_pos hlocation, of?_cons_self, hnew]
    rfl
  · have hpath : rename.oldPath ≠ location.toPath := fun heq =>
      hlocation (congrArg Path.names heq).symm
    rw [if_neg hlocation, of?_cons_of_ne hpath]

end FileRename

/-- The records after a first rename and others that do not start at its old path. -/
theorem Registry.map_renamed {rename : FileRename} {renames : List FileRename}
    {registry : Registry} (hkeys : (registry.map (·.1)).Nodup)
    (hnone : FileRename.of? renames rename.oldPath = none) :
    ((registry.renamed rename).map fun entry => entry.2.renamed renames entry.1) =
      registry.map fun entry => entry.2.renamed (rename :: renames) entry.1 := by
  rw [Registry.renamed, Registry.updateLast_eq_map hkeys, List.map_map]
  refine List.map_congr_left fun entry _ => ?_
  by_cases hkey : entry.1 = rename.oldPath
  · simp only [Function.comp_apply, hkey, if_true, SourceFile.renamed, hnone,
      FileRename.of?_cons_self]
  · simp only [Function.comp_apply, if_neg hkey, SourceFile.renamed,
      FileRename.of?_cons_of_ne (Ne.symm hkey)]

/-- What is done when plans are carried out on a disk: some of them, in their order, without
failure. The records and the disk follow them, and a plan is carried out if its new path is
free and no other plan's. There is something at every new path afterwards that no plan starts
from. -/
structure RenameRun.Carries (run : RenameRun) (plans : List FileRename) (registry : Registry)
    (before after : Disk) : Prop where
  complete : run.failure = none
  tree : after.IsTree
  done : run.done.Sublist plans
  files : run.files = registry.map fun entry => entry.2.renamed run.done entry.1
  moves : before.FileMoves run.done after
  keepsFiles : before.KeepsFiles after fun location =>
    (FileRename.placeAfter run.done location.toPath).names
  carried : ∀ plan ∈ plans, before.get? plan.newPath.names = none →
    (∀ other ∈ plans, other.newPath = plan.newPath → other = plan) → plan ∈ run.done
  held : ∀ plan ∈ plans, (∀ other ∈ plans, other.oldPath.names ≠ plan.newPath.names) →
    after.get? plan.newPath.names ≠ none

namespace RenameRun.Carries

variable {run : RenameRun} {plan : FileRename} {plans : List FileRename} {registry : Registry}
  {before middle after : Disk}

/-- A first plan that is left out because something is at its new path. -/
theorem skip (h : run.Carries plans registry before after)
    (hheld : before.get? plan.newPath.names ≠ none) :
    run.Carries (plan :: plans) registry before after where
  complete := h.complete
  tree := h.tree
  done := h.done.cons plan
  files := h.files
  moves := h.moves
  keepsFiles := h.keepsFiles
  carried other hother hfree hunique := by
    rcases List.mem_cons.mp hother with rfl | hother
    · exact absurd hfree hheld
    · exact h.carried other hother hfree fun p hp => hunique p (List.mem_cons_of_mem plan hp)
  held other hother hstart := by
    rw [List.forall_mem_cons] at hstart
    rcases List.mem_cons.mp hother with rfl | hother
    · exact h.moves.get?_ne_none (fun p hp => hstart.2 p (h.done.subset hp)) hheld
    · exact h.held other hother hstart.2

/-- A first plan that is carried out. -/
theorem cons (h : run.Carries plans (registry.renamed plan) middle after)
    (hmoves : before.MovesFile middle plan.oldPath.names plan.newPath.names)
    (hkeys : (registry.map (·.1)).Nodup) (hplans : ((plan :: plans).map (·.oldPath)).Nodup)
    (hready : ∀ other ∈ plan :: plans, other.IsReady before) :
    { run with done := plan :: run.done }.Carries (plan :: plans) registry before after := by
  have hplan := hready plan List.mem_cons_self
  have hdone : ∀ other ∈ run.done, other.oldPath ≠ plan.oldPath ∧ other.IsReady before := by
    intro other hother
    have hmem := h.done.subset hother
    rw [List.map_cons, List.nodup_cons] at hplans
    refine ⟨fun heq => hplans.1 (heq ▸ List.mem_map_of_mem hmem), ?_⟩
    exact hready other (List.mem_cons_of_mem plan hmem)
  have hfiles : run.files = registry.map fun entry =>
      entry.2.renamed (plan :: run.done) entry.1 := by
    rw [h.files]
    exact Registry.map_renamed hkeys (FileRename.of?_eq_none fun other hother => (hdone other hother).1)
  refine ⟨h.complete, h.tree, h.done.cons_cons plan, hfiles, .cons hmoves h.moves, ?_, ?_, ?_⟩
  · -- No later plan starts at the new path, because no file was there.
    have hnone : FileRename.of? run.done (Location.toPath plan.newPath.names) = none := by
      refine FileRename.of?_eq_none fun other hother heq => ?_
      obtain ⟨bytes, hget⟩ := (hdone other hother).2.isFile
      rw [heq] at hget
      exact hmoves.notFile bytes hget
    rw [funext (FileRename.names_placeAfter_cons hplan.oldPath_eq hnone)]
    exact hmoves.keepsFiles.trans h.keepsFiles
  · intro other hother hfree hunique
    by_cases heq : plan = other
    · exact heq ▸ List.mem_cons_self
    · have hmem := (List.mem_cons.mp hother).resolve_left (Ne.symm heq)
      have hnew : other.newPath.names ≠ plan.newPath.names := by
        intro hnames
        refine heq (hunique plan List.mem_cons_self ?_)
        rw [hplan.newPath_eq, (hready other hother).newPath_eq, hnames]
      have hold : other.newPath.names ≠ plan.oldPath.names := by
        intro hnames
        obtain ⟨bytes, hget⟩ := hplan.isFile
        rw [← hnames, hfree] at hget
        cases hget
      refine List.mem_cons_of_mem plan (h.carried other hmem ?_ fun p hp => ?_)
      · rw [hmoves.get?_of_ne hold hnew, hfree]
      · exact hunique p (List.mem_cons_of_mem plan hp)
  · intro other hother hstart
    rw [List.forall_mem_cons] at hstart
    rcases List.mem_cons.mp hother with rfl | hother
    · refine h.moves.get?_ne_none (fun p hp => hstart.2 p (h.done.subset hp)) ?_
      obtain ⟨bytes, hfile⟩ := hmoves.source
      rw [hmoves.get?_eq, if_pos rfl, hfile]
      exact Option.some_ne_none _
    · exact h.held other hother hstart.2

/-- The records follow their files. -/
theorem map_path {files : List SourceFile}
    (h : run.Carries plans (Registry.ofFiles files) before after) :
    run.files.map (·.path) = files.map fun file => FileRename.placeAfter run.done file.path := by
  rw [h.files, Registry.ofFiles, List.map_map, List.map_map]
  exact List.map_congr_left fun file _ => file.path_renamed run.done

/-- A regular file is found with its bytes where the renames take it. -/
theorem get?_placeAfter (h : run.Carries plans registry before after) {path : Path}
    {bytes : Bytes} (hpath : before.NamesFile path)
    (hget : before.get? path.names = some (.file bytes)) :
    after.get? (FileRename.placeAfter run.done path).names = some (.file bytes) := by
  have hkept := h.keepsFiles.kept _ _ hget
  rwa [hpath.toPath_names] at hkept

theorem namesFile (h : run.Carries plans registry before after)
    (hready : ∀ plan ∈ plans, plan.IsReady before) {path : Path} (hpath : before.NamesFile path) :
    after.NamesFile (FileRename.placeAfter run.done path) := by
  obtain ⟨hanchor, bytes, hget⟩ := id hpath
  have hdone : ∀ plan ∈ run.done, plan.IsReady before :=
    fun plan hplan => hready plan (h.done.subset hplan)
  exact ⟨FileRename.anchor_placeAfter hdone hanchor, bytes, h.get?_placeAfter hpath hget⟩

theorem stores (h : run.Carries plans registry before after)
    (hready : ∀ plan ∈ plans, plan.IsReady before) {path : Path} {text : Text}
    (hpath : before.Stores path text) :
    after.Stores (FileRename.placeAfter run.done path) text := by
  obtain ⟨-, bytes, hget, hdecode⟩ := id hpath
  refine ⟨(h.namesFile hready hpath.namesFile).1, bytes, ?_, hdecode⟩
  exact h.get?_placeAfter hpath.namesFile hget

/-- Different files are taken to different places. -/
theorem nodup_placeAfter (h : run.Carries plans registry before after) {paths : List Path}
    (hpaths : paths.Nodup) (hfiles : ∀ path ∈ paths, before.NamesFile path) :
    (paths.map (FileRename.placeAfter run.done)).Nodup := by
  refine hpaths.map_on fun a ha b hb heq => ?_
  obtain ⟨-, bytesA, hgetA⟩ := hfiles a ha
  obtain ⟨-, bytesB, hgetB⟩ := hfiles b hb
  refine (hfiles a ha).eq_of_names (hfiles b hb) (h.keepsFiles.apart _ _ _ _ hgetA hgetB ?_)
  rw [(hfiles a ha).toPath_names, (hfiles b hb).toPath_names, heq]

end RenameRun.Carries

/-- Plans that are ready are carried out to the end. -/
theorem exists_carryOut {plans : List FileRename} {registry : Registry} {before : Workspace}
    (tree : before.disk.IsTree) (hkeys : (registry.map (·.1)).Nodup)
    (hplans : (plans.map (·.oldPath)).Nodup) (hready : ∀ plan ∈ plans, plan.IsReady before.disk) :
    ∃ run after, (carryOut plans registry).run before = (run, after) ∧
      run.Carries plans registry before.disk after.disk := by
  induction plans generalizing registry before with
  | nil =>
    refine ⟨_, _, rfl, rfl, tree, List.Sublist.refl _, rfl, .nil _, .refl _, ?_, ?_⟩
    · simp
    · simp
  | cons plan plans ih =>
    have hrest := (List.nodup_cons.mp hplans).2
    rw [carryOut_cons]
    rcases Job.renameFile_cases tree (hready plan List.mem_cons_self) with
      ⟨middle, hreturns, hdisk, hheld⟩ | ⟨middle, hreturns, hmoves⟩
    · rw [hreturns]
      obtain ⟨run, after, hrun, hcarries⟩ := ih (hdisk ▸ tree) hkeys hrest fun other hother =>
        hdisk ▸ hready other (List.mem_cons_of_mem plan hother)
      rw [hdisk] at hcarries
      exact ⟨run, after, hrun, hcarries.skip hheld⟩
    · rw [hreturns]
      have hready' : ∀ other ∈ plans, other.IsReady middle.disk := by
        intro other hother
        have hother' := hready other (List.mem_cons_of_mem plan hother)
        refine hother'.movesFile hmoves fun heq => (List.nodup_cons.mp hplans).1 ?_
        have hpath : other.oldPath = plan.oldPath := by
          rw [hother'.oldPath_eq, (hready plan List.mem_cons_self).oldPath_eq, heq]
        exact List.mem_map.mpr ⟨other, hother, hpath⟩
      obtain ⟨run, after, hrun, hcarries⟩ :=
        ih hmoves.tree ((registry.keys_renamed plan).symm ▸ hkeys) hrest hready'
      refine ⟨_, after, ?_, hcarries.cons hmoves hkeys hplans hready⟩
      simp only [hrun]

/-! ## Carrying renames into contents -/

/-- What is read off a list, one by one and without a fault, is read off its elements. -/
theorem forall₂_of_mapM {α β ε : Type} {f : α → Except ε β} {as : List α} {bs : List β}
    (h : as.mapM f = .ok bs) : List.Forall₂ (fun a b => f a = .ok b) as bs := by
  induction as generalizing bs with
  | nil =>
    cases h
    exact .nil
  | cons a as ih =>
    rw [List.mapM_cons] at h
    cases ha : f a with
    | error fault => simp [ha, bind, Except.bind] at h
    | ok b =>
      simp only [ha, bind, Except.bind, pure, Except.pure] at h
      split at h
      · cases h
      · rename_i others hothers
        cases h
        exact .cons ha (ih hothers)

theorem exists_of_mem_right {α β : Type} {R : α → β → Prop} {as : List α} {bs : List β}
    (h : List.Forall₂ R as bs) {b : β} (hb : b ∈ bs) : ∃ a ∈ as, R a b := by
  induction h with
  | nil => cases hb
  | cons hab _ ih =>
    rcases List.mem_cons.mp hb with rfl | hb
    · exact ⟨_, List.mem_cons_self, hab⟩
    · obtain ⟨a, ha, hrelated⟩ := ih hb
      exact ⟨a, List.mem_cons_of_mem _ ha, hrelated⟩

/-- Carried renames edit the contents of each file, and nothing else of it. -/
theorem forall₂_carryIntoContents {renames : List FileRename} {files edited : List SourceFile}
    (h : carryIntoContents renames files = .ok edited) :
    List.Forall₂ (fun file result => ∃ text,
      RenameRule.applyAll (renames.flatMap FileRename.rules) file.contents = .ok text ∧
        result = { file with contents := text }) files edited := by
  refine (forall₂_of_mapM h).imp fun file result hresult => ?_
  cases hedit : RenameRule.applyAll (renames.flatMap FileRename.rules) file.contents with
  | error fault => simp [hedit, bind, Except.bind] at hresult
  | ok text =>
    rw [hedit] at hresult
    cases hresult
    exact ⟨text, rfl, rfl⟩

/-- A rule whose template can be read can be applied to every text. -/
theorem RenameRule.exists_apply_eq {rule : RenameRule} {pieces : List TemplatePiece}
    (h : Template.parse (if rule.keepsKeyword then 1 else 0) rule.template = .ok pieces) :
    ∃ edit : Text → Text, ∀ text, rule.apply text = .ok (edit text) :=
  ⟨_, fun text => by rw [RenameRule.apply, h]; rfl⟩

/-- The rules for a name without a backslash can be applied to every text. -/
theorem exists_apply_of_mem_renameRules {oldName newName : Text} (hplain : '\\' ∉ newName)
    {rule : RenameRule} (hrule : rule ∈ renameRules oldName newName) :
    ∃ edit : Text → Text, ∀ text, rule.apply text = .ok (edit text) := by
  have hkeeps := Template.parse_firstPart hplain
  have hnew : '\\' ∉ ("new " ++ newName : Text) := by simpa using hplain
  have hscope : '\\' ∉ (newName ++ "::" : Text) := by simpa using hplain
  simp only [renameRules, List.mem_cons, List.not_mem_nil, or_false] at hrule
  rcases hrule with rfl | rfl | rfl | rfl
  · exact RenameRule.exists_apply_eq hkeeps
  · exact RenameRule.exists_apply_eq hkeeps
  · exact RenameRule.exists_apply_eq (Template.parseFrom_of_plain hnew)
  · exact RenameRule.exists_apply_eq (Template.parseFrom_of_plain hscope)

theorem RenameRule.exists_applyAll_eq {rules : List RenameRule}
    (h : ∀ rule ∈ rules, ∃ edit : Text → Text, ∀ text, rule.apply text = .ok (edit text)) :
    ∃ edit : Text → Text, ∀ text, RenameRule.applyAll rules text = .ok (edit text) := by
  induction rules with
  | nil => exact ⟨id, fun _ => rfl⟩
  | cons rule rules ih =>
    obtain ⟨first, hfirst⟩ := h rule List.mem_cons_self
    obtain ⟨edit, hedit⟩ := ih fun other hother => h other (List.mem_cons_of_mem rule hother)
    refine ⟨edit ∘ first, fun text => ?_⟩
    rw [RenameRule.applyAll, hfirst]
    exact hedit (first text)

/-- Renames to PascalCase names are carried into the contents of all files. -/
theorem exists_carryIntoContents {renames : List FileRename}
    (hnames : ∀ rename ∈ renames, '\\' ∉ rename.newName) (files : List SourceFile) :
    ∃ edit : Text → Text, carryIntoContents renames files =
      .ok (files.map fun file => { file with contents := edit file.contents }) := by
  have hrules : ∀ rule ∈ renames.flatMap FileRename.rules,
      ∃ edit : Text → Text, ∀ text, rule.apply text = .ok (edit text) := by
    intro rule hrule
    obtain ⟨rename, hrename, hrule⟩ := List.mem_flatMap.mp hrule
    exact exists_apply_of_mem_renameRules (hnames rename hrename) hrule
  obtain ⟨edit, hedit⟩ := RenameRule.exists_applyAll_eq hrules
  refine ⟨edit, ?_⟩
  rw [carryIntoContents]
  induction files with
  | nil => rfl
  | cons file files ih =>
    rw [List.mapM_cons, ih, hedit]
    rfl

/-! ## Renaming the files of a project -/

namespace FileRename

theorem mem_plan {files : List SourceFile} {plan : FileRename} :
    plan ∈ FileRename.plan files ↔ ∃ file ∈ files, ofPath? file.path = some plan :=
  List.mem_filterMap

/-- A rename that was planned is the one that is planned for its old path. -/
theorem ofPath?_of_of? {files : List SourceFile} {done : List FileRename}
    (hdone : done ⊆ FileRename.plan files) {path : Path} {rename : FileRename}
    (h : of? done path = some rename) : ofPath? path = some rename := by
  have hold := List.find?_some h
  rw [decide_eq_true_iff] at hold
  obtain ⟨source, -, hofPath⟩ := mem_plan.mp (hdone (List.mem_of_find?_eq_some h))
  rwa [← oldPath_of_ofPath? hofPath, hold] at hofPath

/-- The new path in the plan for a file of the language has the new name as its stem, and the
old suffix. -/
theorem splitSuffix_newPath {path : Path} {plan : FileRename} (h : ofPath? path = some plan)
    (hsuffix : (languageFor? (Text.lower path.suffix)).isSome = true) :
    Path.splitSuffix plan.newPath.name = (plan.newName, path.suffix) := by
  have hsplit : ∃ tail, tail ≠ [] ∧ '.' ∉ tail ∧ path.suffix = '.' :: tail := by
    rcases Path.splitSuffix_cases path.name with hnone | ⟨stem, tail, -, htail, hdot, -, hcut⟩
    · have hlength := suffix_of_language hsuffix
      rw [Path.suffix, hnone] at hlength
      simp at hlength
    · exact ⟨tail, htail, hdot, by rw [Path.suffix, hcut]⟩
  obtain ⟨tail, htail, hdot, htailEq⟩ := hsplit
  obtain ⟨-, hnil, rfl⟩ := ofPath?_eq_some_iff.mp h
  have hname : (path.withName (pascalCase path.stem ++ path.suffix)).name =
      pascalCase path.stem ++ path.suffix := by
    simp [Path.withName, Path.child, Path.name]
  rw [hname, htailEq, Path.splitSuffix_append hnil htail hdot]

/-- The plan for a file of the language puts another stem, without a backslash, in the place
of its stem. -/
theorem stem_of_ofPath? {path : Path} {plan : FileRename} (h : ofPath? path = some plan)
    (hsuffix : (languageFor? (Text.lower path.suffix)).isSome = true) :
    plan.newPath.name ≠ path.name ∧ plan.newPath.stem = plan.newName ∧ '\\' ∉ plan.newName := by
  have hcut := splitSuffix_newPath h hsuffix
  have hstem : plan.newPath.stem = plan.newName := congrArg Prod.fst hcut
  obtain ⟨hne, -, rfl⟩ := ofPath?_eq_some_iff.mp h
  refine ⟨fun heq => hne ?_, hstem, backslash_not_mem_pascalCase _⟩
  -- Paths with one name have one stem.
  rw [Path.stem, heq] at hstem
  exact hstem.symm

theorem suffix_newPath {path : Path} {plan : FileRename} (h : ofPath? path = some plan)
    (hsuffix : (languageFor? (Text.lower path.suffix)).isSome = true) :
    plan.newPath.suffix = path.suffix := by
  rw [Path.suffix, splitSuffix_newPath h hsuffix]

end FileRename

namespace Job

variable {settings : Settings} {files : List SourceFile} {before loaded : Workspace}

/-- The plans of loaded files are ready. -/
theorem isReady_of_mem_plan (tree : before.disk.IsTree)
    (h : (loadProject tools settings).Returns before files loaded) {plan : FileRename}
    (hplan : plan ∈ FileRename.plan files) : plan.IsReady before.disk := by
  obtain ⟨file, hfile, hofPath⟩ := FileRename.mem_plan.mp hplan
  obtain ⟨hanchor, hget, hsuffix, -⟩ := (returns_loadProject tree h).2 file hfile
  obtain ⟨hold, hsibling⟩ := FileRename.sibling_of_ofPath? hofPath hsuffix
  rw [← hold] at hanchor hget hsibling
  refine ⟨hanchor, hget, hsibling, fun heq => ?_⟩
  refine (FileRename.stem_of_ofPath? hofPath hsuffix).1 ?_
  rw [← hold, Path.name, ← heq, Path.name]

/-- The record of a loaded file is named after its file, before and after renames. -/
theorem typeName_renamed (tree : before.disk.IsTree)
    (h : (loadProject tools settings).Returns before files loaded) {done : List FileRename}
    (hdone : done ⊆ FileRename.plan files) {file : SourceFile} (hfile : file ∈ files) :
    (file.renamed done file.path).typeName = (file.renamed done file.path).path.stem := by
  rw [SourceFile.renamed]
  cases hof : FileRename.of? done file.path with
  | none =>
    obtain ⟨-, -, -, text, -, -, -, -, hfileEq⟩ := (returns_loadProject tree h).2 file hfile
    exact congrArg SourceFile.typeName hfileEq
  | some plan =>
    have hsuffix := ((returns_loadProject tree h).2 file hfile).2.2.1
    exact (FileRename.stem_of_ofPath? (FileRename.ofPath?_of_of? hdone hof) hsuffix).2.1.symm

/-- Renaming loaded files carries out plans, and then the renames are carried into the
contents of all files. -/
theorem exists_renameFiles (tree : before.disk.IsTree)
    (h : (loadProject tools settings).Returns before files loaded) :
    ∃ (run : RenameRun) (carried : Workspace) (edited : List SourceFile),
      (renameFiles files).run loaded = ({ run with files := edited }, carried) ∧
      run.Carries (FileRename.plan files) (Registry.ofFiles files) before.disk carried.disk ∧
      carryIntoContents run.done run.files = .ok edited ∧
      edited.map (·.path) = run.files.map (·.path) := by
  obtain ⟨hpaths, hloaded⟩ := returns_loadProject tree h
  have hdisk := h.disk_eq (keepsDisk_loadProject settings)
  have hkeys : ((Registry.ofFiles files).map (·.1)).Nodup := by
    simpa [Registry.ofFiles, Function.comp_def] using hpaths
  obtain ⟨run, carried, hrun, hcarries⟩ := exists_carryOut (hdisk ▸ tree) hkeys
    (FileRename.nodup_plan hpaths) fun plan hplan => hdisk ▸ isReady_of_mem_plan tree h hplan
  rw [hdisk] at hcarries
  have hplain : ∀ plan ∈ run.done, '\\' ∉ plan.newName := by
    intro plan hplan
    obtain ⟨file, hfile, hofPath⟩ := FileRename.mem_plan.mp (hcarries.done.subset hplan)
    exact (FileRename.stem_of_ofPath? hofPath (hloaded file hfile).2.2.1).2.2
  obtain ⟨edit, hedit⟩ := exists_carryIntoContents hplain run.files
  refine ⟨run, carried, _, ?_, hcarries, hedit, ?_⟩
  · rw [run_renameFiles, hrun]
    simp only [hcarries.complete, hedit]
  · rw [List.map_map]
    rfl

/-- What is returned after loaded files were renamed: the files with the renames carried into
their contents, and the renames. -/
theorem returns_outcome_renameFiles {run : RenameRun} {renamed : List SourceFile}
    {renames : List FileRename} {carried settled : Workspace} (tree : before.disk.IsTree)
    (h : (loadProject tools settings).Returns before files loaded)
    (hrun : (renameFiles files).run loaded = (run, carried))
    (houtcome : run.outcome.Returns carried (renamed, renames) settled) :
    ∃ found : RenameRun, found.done = renames ∧
      found.Carries (FileRename.plan files) (Registry.ofFiles files) before.disk settled.disk ∧
      carryIntoContents renames found.files = .ok renamed ∧
      renamed.map (·.path) = found.files.map (·.path) := by
  obtain ⟨found, last, edited, hfound, hcarries, hedited, hpaths⟩ := exists_renameFiles tree h
  have hsame := hrun.symm.trans hfound
  rw [Prod.mk.injEq] at hsame
  obtain ⟨rfl, rfl⟩ := hsame
  simp only [RenameRun.outcome, hcarries.complete, returns_pure, Prod.mk.injEq] at houtcome
  obtain ⟨⟨rfl, rfl⟩, rfl⟩ := houtcome
  exact ⟨found, rfl, hcarries, hedited, hpaths⟩

/-- Renaming the files of a project, as they were found and read, does not fail. Every
regular file is found afterwards with the same bytes, at the new path of its rename if that
was carried out and where it was if not, and no two at one place; there are no other files,
and the directories are the same. The records have distinct paths, those of their files,
and are named after them. A file is renamed if nothing is at its new path and no other file
asks for it. -/
theorem keepsFiles_renameFiles (tree : before.disk.IsTree)
    (h : (loadProject tools settings).Returns before files loaded) :
    ∃ run after, (renameFiles files).run loaded = (run, after) ∧ run.failure = none ∧
      run.done.Sublist (FileRename.plan files) ∧ after.disk.IsTree ∧
      before.disk.KeepsFiles after.disk
        (fun location => (FileRename.placeAfter run.done location.toPath).names) ∧
      run.files.map (·.path) = files.map (fun file => FileRename.placeAfter run.done file.path) ∧
      (run.files.map (·.path)).Nodup ∧
      (∀ file ∈ run.files, file.typeName = file.path.stem) ∧
      ∀ plan ∈ FileRename.plan files, before.disk.get? plan.newPath.names = none →
        (∀ other ∈ FileRename.plan files, other.newPath = plan.newPath → other = plan) →
          plan ∈ run.done := by
  obtain ⟨run, after, edited, hrun, hcarries, hedited, hsame⟩ := exists_renameFiles tree h
  have hplaces : edited.map (·.path) =
      files.map fun file => FileRename.placeAfter run.done file.path := by
    rw [hsame, hcarries.map_path]
  have hnodup : (edited.map (·.path)).Nodup := by
    rw [hplaces, ← Function.comp_def, ← List.map_map]
    refine hcarries.nodup_placeAfter (returns_loadProject tree h).1 fun path hpath => ?_
    obtain ⟨file, hfile, rfl⟩ := List.mem_map.mp hpath
    exact namesFile_of_returns_loadProject tree h hfile
  refine ⟨{ run with files := edited }, after, hrun, hcarries.complete, hcarries.done,
    hcarries.tree, hcarries.keepsFiles, hplaces, hnodup, ?_, hcarries.carried⟩
  intro record hrecord
  obtain ⟨file, hfile, text, -, rfl⟩ :=
    exists_of_mem_right (forall₂_carryIntoContents hedited) hrecord
  rw [hcarries.files, Registry.ofFiles, List.map_map] at hfile
  obtain ⟨source, hsource, rfl⟩ := List.mem_map.mp hfile
  exact typeName_renamed tree h hcarries.done.subset hsource

/-- A project in which two files ask for one name and a third one for that of a directory. -/
def crowdedProject : Workspace where
  root := ⟨[], []⟩
  disk.entries := [(["a-b.php".toList], .file [60]), (["a_b.php".toList], .file [63]),
    (["x_y.php".toList], .file []), (["XY.php".toList], .directory)]

/-- The files of the crowded project as they are loaded. -/
def crowdedFiles : List SourceFile :=
  [.ofPath ⟨[], ["a-b.php".toList]⟩ "<", .ofPath ⟨[], ["a_b.php".toList]⟩ "?",
    .ofPath ⟨[], ["x_y.php".toList]⟩ ""]

/-- Settings that leave all but the root namespace as it is by default. -/
def plainSettings : Settings := { rootNamespace := "App" }

theorem returns_loadProject_crowded :
    (loadProject .standard plainSettings).Returns crowdedProject crowdedFiles
      ((loadProject .standard plainSettings).outcome crowdedProject).2 :=
  returns_of_toOption (by decide)

theorem keepsFiles_renameFiles_crowded :
    crowdedProject.disk.IsTree ∧
      (loadProject .standard plainSettings).Returns crowdedProject crowdedFiles
        ((loadProject .standard plainSettings).outcome crowdedProject).2 ∧
      ∃ run after, (renameFiles crowdedFiles).run
          ((loadProject .standard plainSettings).outcome crowdedProject).2 = (run, after) ∧
        run.failure = none ∧ run.done.Sublist (FileRename.plan crowdedFiles) ∧
        after.disk.IsTree ∧
        crowdedProject.disk.KeepsFiles after.disk
          (fun location => (FileRename.placeAfter run.done location.toPath).names) ∧
        run.files.map (·.path) =
          crowdedFiles.map (fun file => FileRename.placeAfter run.done file.path) ∧
        (run.files.map (·.path)).Nodup ∧
        (∀ file ∈ run.files, file.typeName = file.path.stem) ∧
        ∀ plan ∈ FileRename.plan crowdedFiles,
          crowdedProject.disk.get? plan.newPath.names = none →
            (∀ other ∈ FileRename.plan crowdedFiles, other.newPath = plan.newPath →
              other = plan) → plan ∈ run.done :=
  ⟨by decide, returns_loadProject_crowded,
    keepsFiles_renameFiles (by decide) returns_loadProject_crowded⟩

end Job

end Namespacer
