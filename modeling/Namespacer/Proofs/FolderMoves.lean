import Namespacer.Proofs.RenamedFiles

/-!
# Renaming folders

Folders are renamed from the root down. While this goes on, the folders above have their new
names and the folders below have their old ones, so a location names different folders at
different times. `Disk.FolderMoves` is the chain of single moves that leads from one disk to
another, and `FolderRename.carry` follows a location along it.

* `Disk.FolderMoves.relabels`: a chain of moves loses nothing and adds nothing.
* `Disk.Sweeps`, `Job.returns_renameNamed`: what is done to the folders of one directory.
* `Job.returns_renameFolders`: renaming all folders of a project is a chain of moves, the one
  that is returned.
* `Job.carry_of_isSettled`: what lies below folders that keep their names, up to a folder that
  is left alone, stays where it is.
-/

namespace Namespacer

theorem isEntryName_pascalCase {name : Text} (h : pascalCase name ≠ []) :
    Disk.IsEntryName (pascalCase name) := by
  have hdot : '.' ∉ pascalCase name := not_mem_pascalCase (by decide) (by decide) name
  refine ⟨?_, ?_⟩
  · rw [Path.isName, Bool.and_eq_true, bne_iff_ne, bne_iff_ne]
    refine ⟨h, fun heq => hdot ?_⟩
    rw [heq]
    exact List.mem_cons_self
  · intro heq
    refine hdot ?_
    rw [heq]
    exact List.mem_cons_self

/-! ## Locations along renames -/

/-- Where a location is after folders were renamed, one after another. -/
def FolderRename.carry (renames : List FolderRename) (location : Location) : Location :=
  renames.foldl (fun location rename => Location.moved rename.old rename.new location) location

namespace FolderRename

theorem carry_cons (rename : FolderRename) (renames : List FolderRename) (location : Location) :
    carry (rename :: renames) location =
      carry renames (Location.moved rename.old rename.new location) := rfl

theorem carry_append (renames others : List FolderRename) (location : Location) :
    carry (renames ++ others) location = carry others (carry renames location) :=
  List.foldl_append

theorem carry_of_not_prefix {renames : List FolderRename} {location : Location}
    (h : ∀ rename ∈ renames, ¬ rename.old <+: location) : carry renames location = location := by
  induction renames with
  | nil => rfl
  | cons rename renames ih =>
    rw [List.forall_mem_cons] at h
    rw [carry_cons, Location.moved_of_not_prefix _ h.1, ih h.2]

end FolderRename

namespace Disk

/-! ## Disks with the same entries -/

/-- Every entry of a disk is found on another one, at a place that it shares with no other,
and the other disk has no more entries. -/
structure Relabels (before after : Disk) (place : Location → Location) : Prop where
  kept : ∀ location entry, before.get? location = some entry →
    after.get? (place location) = some entry
  apart : ∀ a b entry other, before.get? a = some entry → before.get? b = some other →
    place a = place b → a = b
  onto : ∀ location entry, after.get? location = some entry →
    ∃ source, before.get? source = some entry ∧ place source = location

theorem Relabels.refl (disk : Disk) : disk.Relabels disk id where
  kept _ _ h := h
  apart _ _ _ _ _ _ h := h
  onto location _ h := ⟨location, h, rfl⟩

theorem Relabels.trans {first middle last : Disk} {place place' : Location → Location}
    (h : first.Relabels middle place) (h' : middle.Relabels last place') :
    first.Relabels last (place' ∘ place) where
  kept location entry hget := h'.kept _ _ (h.kept _ _ hget)
  apart a b entry other ha hb heq :=
    h.apart a b _ _ ha hb (h'.apart _ _ _ _ (h.kept _ _ ha) (h.kept _ _ hb) heq)
  onto location entry hget := by
    obtain ⟨middle, hmiddle, rfl⟩ := h'.onto location entry hget
    obtain ⟨source, hsource, rfl⟩ := h.onto middle entry hmiddle
    exact ⟨source, hsource, rfl⟩

/-! ## Moving one folder -/

/-- Beside a folder there is a place for one with its PascalCase name. -/
theorem IsTree.isPlace_pascalCase {disk : Disk} (tree : disk.IsTree) {directory : Location}
    {name : Text} {entry : Entry} (h : disk.get? (directory ++ [name]) = some entry)
    (hname : pascalCase name ≠ []) : disk.IsPlace (directory ++ [pascalCase name]) := by
  have hparent := tree.get?_dropLast h
  rw [List.dropLast_concat] at hparent
  refine ⟨?_, by rwa [List.dropLast_concat]⟩
  intro part hpart
  rcases List.mem_append.mp hpart with hpart | hpart
  · exact tree.names_of_get? hparent part hpart
  · rw [List.mem_singleton.mp hpart]
    exact isEntryName_pascalCase hname

/-- What comes of renaming a folder to a PascalCase name under which nothing else is seen: the
name is free, and the folder is moved, or a link has it, and the rename is refused. -/
theorem IsTree.rename_pascalCase {disk : Disk} (tree : disk.IsTree) {directory : Location}
    {name : Text} (hfolder : disk.get? (directory ++ [name]) = some .directory)
    (hnil : pascalCase name ≠ []) (hname : pascalCase name ≠ name)
    (hother : disk.holdsOther (Location.toPath (directory ++ [pascalCase name]))
      (.inside (directory ++ [name])) = false) :
    disk.get? (directory ++ [pascalCase name]) = none ∧
        disk.rename (Location.toPath (directory ++ [name]))
          (Location.toPath (directory ++ [pascalCase name])) =
            .ok (disk.move (directory ++ [name]) (directory ++ [pascalCase name])) ∨
      ∃ target, disk.get? (directory ++ [pascalCase name]) = some (.link target) ∧
        disk.rename (Location.toPath (directory ++ [name]))
          (Location.toPath (directory ++ [pascalCase name])) = .error .notDirectory := by
  have hne : directory ++ [name] ≠ directory ++ [pascalCase name] := by
    simpa using Ne.symm hname
  have hold : disk.locate false (Location.toPath (directory ++ [name])) =
      .ok (.inside (directory ++ [name])) := tree.locate_place (tree.isPlace hfolder) (by simp)
  have hnew : disk.locate false (Location.toPath (directory ++ [pascalCase name])) =
      .ok (.inside (directory ++ [pascalCase name])) :=
    tree.locate_place (tree.isPlace_pascalCase hfolder hnil) (by simp)
  have hbelow : Location.below? (directory ++ [name]) (directory ++ [pascalCase name]) = none := by
    rw [Location.below?_eq_none_iff, List.prefix_append_right_inj, List.cons_prefix_cons]
    exact fun heq => hname heq.1.symm
  have hseen {entry : Entry} (hget : disk.get? (directory ++ [pascalCase name]) = some entry)
      (hlink : ∀ target, entry ≠ .link target) : False := by
    rw [Location.toPath, tree.holdsOther_of_get? hne hget hlink] at hother
    cases hother
  rw [rename_eq hold hnew]
  simp only [Disk.renameAt, hfolder, if_neg hne, hbelow]
  cases hget : disk.get? (directory ++ [pascalCase name]) with
  | none => exact .inl ⟨rfl, rfl⟩
  | some entry =>
    cases entry with
    | link target => exact .inr ⟨target, rfl, rfl⟩
    | file bytes => exact (hseen hget (by simp)).elim
    | directory => exact (hseen hget (by simp)).elim

/-- A folder that is renamed: it is not left alone, and its PascalCase name is another one
and free. -/
structure CanRename (excludes : Text → Bool) (disk : Disk) (directory : Location) (name : Text) :
    Prop where
  folder : disk.get? (directory ++ [name]) = some .directory
  ne_nil : pascalCase name ≠ []
  ne : pascalCase name ≠ name
  free : disk.get? (directory ++ [pascalCase name]) = none
  entered : leavesFolder excludes (directory ++ [name]) = false

namespace CanRename

variable {excludes : Text → Bool} {disk : Disk} {directory : Location} {name : Text}

theorem canMove (h : disk.CanRename excludes directory name) (tree : disk.IsTree) :
    disk.CanMove (directory ++ [name]) (directory ++ [pascalCase name]) := by
  refine tree.canMove (tree.isPlace_pascalCase h.folder h.ne_nil) ?_ (by simp [h.free])
  rw [List.prefix_append_right_inj, List.cons_prefix_cons]
  exact fun heq => h.ne heq.1.symm

theorem erase_eq (h : disk.CanRename excludes directory name) (tree : disk.IsTree) :
    disk.erase (directory ++ [pascalCase name]) = disk := tree.erase_eq_self h.free

theorem isTree (h : disk.CanRename excludes directory name) (tree : disk.IsTree) :
    (disk.move (directory ++ [name]) (directory ++ [pascalCase name])).IsTree := by
  have hmoved := tree.erase_move (h.canMove tree)
  rwa [h.erase_eq tree] at hmoved

/-- Moving a folder loses nothing and adds nothing. -/
theorem relabels (h : disk.CanRename excludes directory name) (tree : disk.IsTree) :
    disk.Relabels (disk.move (directory ++ [name]) (directory ++ [pascalCase name]))
      (Location.moved (directory ++ [name]) (directory ++ [pascalCase name])) := by
  have hnil : Location.moved (directory ++ [name]) (directory ++ [pascalCase name]) [] = [] :=
    Location.moved_of_not_prefix _ (by simp)
  have hfree := tree.not_prefix_of_get?_none h.free
  have tree' := h.isTree tree
  have hne {location : Location} {entry : Entry} (hlocation : location ≠ [])
      (hget : disk.get? location = some entry) :
      Location.moved (directory ++ [name]) (directory ++ [pascalCase name]) location ≠ [] :=
    (tree'.inDirectory _ (mem_move.mpr ⟨location, mem_of_get? hlocation hget, rfl⟩)).1
  refine ⟨?_, ?_, ?_⟩
  · intro location entry hget
    by_cases hlocation : location = []
    · rw [hlocation, hnil]
      rwa [hlocation] at hget
    · exact tree'.get?_of_mem (mem_move.mpr ⟨location, mem_of_get? hlocation hget, rfl⟩)
  · intro a b entry other ha hb heq
    by_cases hA : a = []
    · by_cases hB : b = []
      · rw [hA, hB]
      · rw [hA, hnil] at heq
        exact absurd heq.symm (hne hB hb)
    · by_cases hB : b = []
      · rw [hB, hnil] at heq
        exact absurd heq (hne hA ha)
      · exact moved_inj hfree (mem_of_get? hA ha) (mem_of_get? hB hb) heq
  · intro location entry hget
    by_cases hlocation : location = []
    · refine ⟨[], ?_, hnil.trans hlocation.symm⟩
      rwa [hlocation] at hget
    · obtain ⟨source, hsource, hmoved⟩ := mem_move.mp (mem_of_get? hlocation hget)
      exact ⟨source, tree.get?_of_mem hsource, hmoved⟩

/-- What lies beside a moved folder stays. -/
theorem get?_move_sibling (h : disk.CanRename excludes directory name) (tree : disk.IsTree)
    {other : Text} {entry : Entry} (hne : other ≠ name)
    (hget : disk.get? (directory ++ [other]) = some entry) :
    (disk.move (directory ++ [name]) (directory ++ [pascalCase name])).get?
      (directory ++ [other]) = some entry := by
  have hkept := (h.relabels tree).kept _ _ hget
  rwa [Location.moved_of_not_prefix] at hkept
  rw [List.prefix_append_right_inj, List.cons_prefix_cons]
  exact fun heq => hne heq.1.symm

/-- Other folders that lie beside a moved one stay, too. -/
theorem get?_move_names (h : disk.CanRename excludes directory name) (tree : disk.IsTree)
    {names : List Text} (hnot : name ∉ names)
    (hnames : ∀ other ∈ names, disk.get? (directory ++ [other]) = some .directory) :
    ∀ other ∈ names, (disk.move (directory ++ [name]) (directory ++ [pascalCase name])).get?
      (directory ++ [other]) = some .directory := by
  intro other hother
  refine h.get?_move_sibling tree ?_ (hnames other hother)
  rintro rfl
  exact hnot hother

/-- The new name of a folder is free, so it is not that of another folder. -/
theorem pascalCase_not_mem (h : disk.CanRename excludes directory name) {names : List Text}
    (hnames : ∀ other ∈ names, disk.get? (directory ++ [other]) = some .directory) :
    pascalCase name ∉ names := by
  intro hmem
  have hfolder := hnames _ hmem
  rw [h.free] at hfolder
  cases hfolder

/-- What is no folder keeps its name when a folder is moved. -/
theorem getLast?_moved (h : disk.CanRename excludes directory name) {location : Location}
    {entry : Entry} (hget : disk.get? location = some entry) (hentry : entry ≠ .directory) :
    (Location.moved (directory ++ [name]) (directory ++ [pascalCase name]) location).getLast? =
      location.getLast? := by
  by_cases hprefix : directory ++ [name] <+: location
  · obtain ⟨rest, rfl⟩ := hprefix
    have hrest : rest ≠ [] := by
      rintro rfl
      rw [List.append_nil, h.folder] at hget
      exact hentry (Option.some.inj hget).symm
    rw [Location.moved_append, List.getLast?_append_of_ne_nil _ hrest,
      List.getLast?_append_of_ne_nil _ hrest]
  · rw [Location.moved_of_not_prefix _ hprefix]

end CanRename

/-- A folder that keeps its name: it has no other name in PascalCase, or that one is taken. -/
def KeepsName (disk : Disk) (directory : Location) (name : Text) : Prop :=
  pascalCase name = [] ∨ pascalCase name = name ∨
    disk.get? (directory ++ [pascalCase name]) ≠ none

/-! ## Chains of moves -/

/-- A chain of renames of single folders, each of them possible when it is made. -/
inductive FolderMoves (excludes : Text → Bool) : Disk → List FolderRename → Disk → Prop where
  | nil (disk : Disk) : FolderMoves excludes disk [] disk
  | cons {disk after : Disk} {directory : Location} {name : Text} {renames : List FolderRename}
      (h : disk.CanRename excludes directory name)
      (rest : FolderMoves excludes
        (disk.move (directory ++ [name]) (directory ++ [pascalCase name])) renames after) :
      FolderMoves excludes disk
        (⟨directory ++ [name], directory ++ [pascalCase name]⟩ :: renames) after

namespace FolderMoves

variable {excludes : Text → Bool} {before middle after : Disk} {renames others : List FolderRename}

theorem append (h : FolderMoves excludes before renames middle)
    (h' : FolderMoves excludes middle others after) :
    FolderMoves excludes before (renames ++ others) after := by
  induction h with
  | nil disk => exact h'
  | cons hcan _ ih => exact .cons hcan (ih h')

theorem isTree (h : FolderMoves excludes before renames after) (tree : before.IsTree) :
    after.IsTree := by
  induction h with
  | nil disk => exact tree
  | cons hcan _ ih => exact ih (hcan.isTree tree)

theorem around_eq (h : FolderMoves excludes before renames after) :
    after.around = before.around := by
  induction h with
  | nil disk => rfl
  | cons _ _ ih => exact ih

/-- A chain of moves loses nothing and adds nothing. -/
theorem relabels (h : FolderMoves excludes before renames after) (tree : before.IsTree) :
    before.Relabels after (FolderRename.carry renames) := by
  induction h with
  | nil disk => exact .refl disk
  | cons hcan _ ih => exact (hcan.relabels tree).trans (ih (hcan.isTree tree))

/-- What is no folder keeps its name along a chain of moves. -/
theorem getLast?_carry (h : FolderMoves excludes before renames after) (tree : before.IsTree)
    {location : Location} {entry : Entry} (hget : before.get? location = some entry)
    (hentry : entry ≠ .directory) :
    (FolderRename.carry renames location).getLast? = location.getLast? := by
  induction h generalizing location with
  | nil disk => rfl
  | cons hcan _ ih =>
    have hkept := (hcan.relabels tree).kept _ _ hget
    rw [FolderRename.carry_cons, ih (hcan.isTree tree) hkept, hcan.getLast?_moved hget hentry]

/-- A renamed folder did not have a name in PascalCase. -/
theorem ne_pascalCase (h : FolderMoves excludes before renames after) {rename : FolderRename}
    (hrename : rename ∈ renames) :
    ∃ directory name, rename.old = directory ++ [name] ∧ pascalCase name ≠ [] ∧
      pascalCase name ≠ name ∧ leavesFolder excludes rename.old = false := by
  induction h with
  | nil disk => cases hrename
  | cons hcan _ ih =>
    rcases List.mem_cons.mp hrename with rfl | hrename
    · exact ⟨_, _, rfl, hcan.ne_nil, hcan.ne, hcan.entered⟩
    · exact ih hrename

/-- What is no folder stays if no folder above it is moved. -/
theorem carry_eq (h : FolderMoves excludes before renames after) (tree : before.IsTree)
    {location : Location} {entry : Entry} (hget : before.get? location = some entry)
    (hentry : entry ≠ .directory)
    (habove : ∀ rename ∈ renames, rename.old <+: location → rename.old = location) :
    FolderRename.carry renames location = location := by
  induction h with
  | nil disk => rfl
  | cons hcan _ ih =>
    simp only [List.forall_mem_cons] at habove
    have hnot := fun hprefix => hentry <| by
      have hfolder := hcan.folder
      rw [habove.1 hprefix, hget] at hfolder
      exact Option.some.inj hfolder
    have hkept := (hcan.relabels tree).kept _ _ hget
    rw [Location.moved_of_not_prefix _ hnot] at hkept
    rw [FolderRename.carry_cons, Location.moved_of_not_prefix _ hnot,
      ih (hcan.isTree tree) hkept habove.2]

end FolderMoves

/-! ## Folders that are left alone -/

/-- A folder that is left alone, below folders that keep their names. -/
structure IsFrozen (excludes : Text → Bool) (disk : Disk) (top : Location) : Prop where
  ne_nil : top ≠ []
  folder : disk.get? top = some .directory
  left : leavesFolder excludes top = true
  above : ∀ name ∈ top.dropLast, pascalCase name = name ∨ pascalCase name = []

theorem CanRename.not_prefix {excludes : Text → Bool} {disk : Disk} {directory top : Location}
    {name : Text} (h : disk.CanRename excludes directory name)
    (hfrozen : disk.IsFrozen excludes top) : ¬ directory ++ [name] <+: top := by
  rintro ⟨rest, rfl⟩
  rcases List.eq_nil_or_concat' rest with rfl | ⟨rest, last, rfl⟩
  · have hleft := hfrozen.left
    rw [List.append_nil, h.entered] at hleft
    cases hleft
  · have hmem : name ∈ (directory ++ [name] ++ (rest ++ [last])).dropLast := by
      rw [← List.append_assoc, List.dropLast_concat]
      simp
    rcases hfrozen.above name hmem with heq | heq
    · exact h.ne heq
    · exact h.ne_nil heq

theorem FolderMoves.isFrozen {excludes : Text → Bool} {before after : Disk}
    {renames : List FolderRename} (h : FolderMoves excludes before renames after)
    (tree : before.IsTree) {top : Location} (hfrozen : before.IsFrozen excludes top) :
    after.IsFrozen excludes top := by
  induction h with
  | nil disk => exact hfrozen
  | cons hcan _ ih =>
    have hkept := (hcan.relabels tree).kept _ _ hfrozen.folder
    rw [Location.moved_of_not_prefix _ (hcan.not_prefix hfrozen)] at hkept
    exact ih (hcan.isTree tree) ⟨hfrozen.ne_nil, hkept, hfrozen.left, hfrozen.above⟩

/-! ## Sweeping one directory -/

/-- What is done to some folders of a directory, one after another: a folder is left alone,
keeps its name, or is renamed. The locations are those of the folders to go on with. -/
inductive Sweeps (excludes : Text → Bool) (directory : Location) :
    Disk → List Text → List Location → List FolderRename → Disk → Prop where
  | nil (disk : Disk) : Sweeps excludes directory disk [] [] [] disk
  | leave {disk after : Disk} {name : Text} {names : List Text} {folders : List Location}
      {renames : List FolderRename} (h : leavesFolder excludes (directory ++ [name]) = true)
      (rest : Sweeps excludes directory disk names folders renames after) :
      Sweeps excludes directory disk (name :: names) folders renames after
  | keep {disk after : Disk} {name : Text} {names : List Text} {folders : List Location}
      {renames : List FolderRename} (entered : leavesFolder excludes (directory ++ [name]) = false)
      (h : disk.KeepsName directory name)
      (rest : Sweeps excludes directory disk names folders renames after) :
      Sweeps excludes directory disk (name :: names) ((directory ++ [name]) :: folders) renames
        after
  | move {disk after : Disk} {name : Text} {names : List Text} {folders : List Location}
      {renames : List FolderRename} (h : disk.CanRename excludes directory name)
      (rest : Sweeps excludes directory
        (disk.move (directory ++ [name]) (directory ++ [pascalCase name])) names folders renames
        after) :
      Sweeps excludes directory disk (name :: names)
        ((directory ++ [pascalCase name]) :: folders)
        (⟨directory ++ [name], directory ++ [pascalCase name]⟩ :: renames) after

namespace Sweeps

variable {excludes : Text → Bool} {directory : Location} {before after : Disk}
  {names : List Text} {folders : List Location} {renames : List FolderRename}

theorem folderMoves (h : Sweeps excludes directory before names folders renames after) :
    FolderMoves excludes before renames after := by
  induction h with
  | nil disk => exact .nil disk
  | leave _ _ ih => exact ih
  | keep _ _ _ ih => exact ih
  | move hcan _ ih => exact .cons hcan ih

/-- A sweep neither enters a frozen folder nor renames one. -/
theorem not_prefix (h : Sweeps excludes directory before names folders renames after)
    (tree : before.IsTree) {top : Location} (hfrozen : before.IsFrozen excludes top)
    (houtside : ¬ top <+: directory) :
    (∀ rename ∈ renames, ¬ top <+: rename.old) ∧ ∀ folder ∈ folders, ¬ top <+: folder := by
  have hentered {name : Text} (hname : leavesFolder excludes (directory ++ [name]) = false) :
      ¬ top <+: directory ++ [name] := by
    rw [List.prefix_concat_iff, not_or]
    refine ⟨?_, houtside⟩
    rintro rfl
    have hleft := hfrozen.left
    rw [hname] at hleft
    cases hleft
  induction h with
  | nil disk => simp
  | leave _ _ ih => exact ih tree hfrozen
  | keep hname _ _ ih =>
    obtain ⟨hrenames, hfolders⟩ := ih tree hfrozen
    exact ⟨hrenames, List.forall_mem_cons.mpr ⟨hentered hname, hfolders⟩⟩
  | move hcan _ ih =>
    have hmove := FolderMoves.cons hcan (.nil _)
    obtain ⟨hrenames, hfolders⟩ := ih (hcan.isTree tree) (hmove.isFrozen tree hfrozen)
    refine ⟨List.forall_mem_cons.mpr ⟨hentered hcan.entered, hrenames⟩,
      List.forall_mem_cons.mpr ⟨?_, hfolders⟩⟩
    rw [List.prefix_concat_iff, not_or]
    refine ⟨?_, houtside⟩
    rintro rfl
    have hfolder := hfrozen.folder
    rw [hcan.free] at hfolder
    cases hfolder

end Sweeps

end Disk

/-! ## The walk -/

namespace Job

variable {excludes : Text → Bool} {directory : Location} {before after : Workspace}

/-- What renaming a folder does: nothing, because it keeps its name, or a move. -/
theorem returns_renameFolder {name : Text} {folder : Location} {renames : List FolderRename}
    (tree : before.disk.IsTree)
    (hfolder : before.disk.get? (directory ++ [name]) = some .directory)
    (hentered : leavesFolder excludes (directory ++ [name]) = false)
    (h : (renameFolder directory name).Returns before (folder, renames) after) :
    folder = directory ++ [name] ∧ renames = [] ∧ after.disk = before.disk ∧
        before.disk.KeepsName directory name ∨
      before.disk.CanRename excludes directory name ∧ folder = directory ++ [pascalCase name] ∧
        renames = [⟨directory ++ [name], directory ++ [pascalCase name]⟩] ∧
        after.disk = before.disk.move (directory ++ [name]) (directory ++ [pascalCase name]) := by
  rw [renameFolder] at h
  split at h
  · rename_i hname
    rw [Bool.or_eq_true, List.isEmpty_iff, beq_iff_eq] at hname
    obtain ⟨heq, rfl⟩ := returns_pure.mp h
    cases heq
    exact .inl ⟨rfl, rfl, rfl, hname.imp_right .inl⟩
  rename_i hname
  rw [Bool.or_eq_true, not_or, List.isEmpty_iff, beq_iff_eq] at hname
  rw [returns_bind] at h
  obtain ⟨found, middle, hfound, h⟩ := h
  obtain ⟨rfl, rfl⟩ := returns_disk.mp hfound
  have hplace := tree.isPlace_pascalCase hfolder hname.1
  split at h
  · rename_i hother
    rw [returns_bind] at h
    obtain ⟨_, last, hlog, h⟩ := h
    obtain ⟨heq, rfl⟩ := returns_pure.mp h
    cases heq
    refine .inl ⟨rfl, rfl, hlog.disk_eq (keepsDisk_log _), .inr (.inr fun hfree => ?_)⟩
    have hnone := tree.holdsOther_of_free hplace hfree (directory ++ [name])
    exact Bool.false_ne_true (hnone.symm.trans hother)
  rename_i hother
  rw [returns_bind] at h
  obtain ⟨_, last, hrename, h⟩ := h
  obtain ⟨heq, rfl⟩ := returns_pure.mp h
  cases heq
  have hdisk := disk_of_returns_rename hrename
  -- A folder does not take the place of a link, and nothing else can be there.
  obtain ⟨hfree, hmove⟩ | ⟨target, -, hrefused⟩ :=
    tree.rename_pascalCase hfolder hname.1 hname.2 (by simpa using hother)
  · rw [hmove, Except.ok.injEq] at hdisk
    exact .inr ⟨⟨hfolder, hname.1, hname.2, hfree, hentered⟩, rfl, rfl, hdisk.symm⟩
  · rw [hrefused] at hdisk
    cases hdisk

/-- Renaming folders of one directory is a sweep. -/
theorem returns_renameNamed {names : List Text} {folders : List Location}
    {renames : List FolderRename} (tree : before.disk.IsTree) (hnodup : names.Nodup)
    (hnames : ∀ name ∈ names, before.disk.get? (directory ++ [name]) = some .directory)
    (h : (renameNamed excludes directory names).Returns before (folders, renames) after) :
    Disk.Sweeps excludes directory before.disk names folders renames after.disk := by
  induction names generalizing before folders renames with
  | nil =>
    obtain ⟨heq, rfl⟩ := returns_pure.mp h
    cases heq
    exact .nil _
  | cons name names ih =>
    rw [List.nodup_cons] at hnodup
    rw [List.forall_mem_cons] at hnames
    rw [renameNamed] at h
    split at h
    · rename_i hleft
      exact .leave hleft (ih tree hnodup.2 hnames.2 h)
    rename_i hentered
    rw [Bool.not_eq_true] at hentered
    rw [returns_bind] at h
    obtain ⟨⟨folder, moves⟩, w₁, hfolder, h⟩ := h
    rw [returns_bind] at h
    obtain ⟨⟨others, rest⟩, w₂, hothers, h⟩ := h
    obtain ⟨heq, rfl⟩ := returns_pure.mp h
    cases heq
    rcases returns_renameFolder tree hnames.1 hentered hfolder with
      ⟨rfl, rfl, hdisk, hkeeps⟩ | ⟨hcan, rfl, rfl, hdisk⟩
    · have hrest := ih (hdisk ▸ tree) hnodup.2 (hdisk ▸ hnames.2) hothers
      rw [hdisk] at hrest
      exact .keep hentered hkeeps hrest
    · have hothersKept : ∀ other ∈ names,
          w₁.disk.get? (directory ++ [other]) = some .directory :=
        hdisk ▸ hcan.get?_move_names tree hnodup.1 hnames.2
      have hrest := ih (hdisk ▸ hcan.isTree tree) hnodup.2 hothersKept hothers
      rw [hdisk] at hrest
      exact .move hcan hrest

theorem returns_folderNames {names : List Text} (tree : before.disk.IsTree)
    (h : (folderNames directory).Returns before names after) :
    after = before ∧ names.Nodup ∧
      ∀ name, name ∈ names ↔ before.disk.get? (directory ++ [name]) = some .directory := by
  rw [folderNames, returns_bind] at h
  obtain ⟨found, middle, hfound, h⟩ := h
  obtain ⟨rfl, rfl⟩ := returns_disk.mp hfound
  obtain ⟨rfl, rfl⟩ := returns_pure.mp h
  have hmem {child : Text × Entry} {name : Text}
      (hchild : (if child.2 = .directory then some child.1 else none) = some name) :
      child = (name, .directory) := by
    split at hchild
    · rename_i hdirectory
      cases hchild
      rw [← hdirectory]
    · cases hchild
  refine ⟨rfl, ?_, ?_⟩
  · have hnodup := tree.nodup_children directory
    rw [List.Nodup, List.pairwise_map] at hnodup
    rw [List.Nodup, List.pairwise_filterMap]
    refine hnodup.imp fun {a b} hne nameA hA nameB hB heq => hne ?_
    rw [hmem hA, hmem hB, heq]
  · intro name
    rw [tree.get?_eq_some_iff (by simp), ← Disk.mem_children, List.mem_filterMap]
    exact ⟨fun ⟨child, hchild, heq⟩ => hmem heq ▸ hchild, fun hchild => ⟨_, hchild, if_pos rfl⟩⟩

/-- What a visit does: it sweeps the first of the pending directories, and what is left to do is
done below the folders to go on with and the other pending directories. -/
theorem returns_renameBelow_cons {count : Nat} {pending : List Location}
    {renames : List FolderRename} (tree : before.disk.IsTree)
    (h : (renameBelow excludes (count + 1) (directory :: pending)).Returns before renames after) :
    ∃ names folders moves others middle, names.Nodup ∧
      (∀ name, name ∈ names ↔ before.disk.get? (directory ++ [name]) = some .directory) ∧
      Disk.Sweeps excludes directory before.disk names folders moves middle.disk ∧
      (renameBelow excludes count (folders.reverse ++ pending)).Returns middle others after ∧
      renames = moves ++ others := by
  rw [renameBelow, returns_bind] at h
  obtain ⟨names, w₁, hnames, h⟩ := h
  rw [returns_bind] at h
  obtain ⟨⟨folders, moves⟩, w₂, hmoves, h⟩ := h
  rw [returns_bind] at h
  obtain ⟨others, w₃, hothers, h⟩ := h
  obtain ⟨rfl, rfl⟩ := returns_pure.mp h
  obtain ⟨rfl, hnodup, hfolders⟩ := returns_folderNames tree hnames
  have hsweeps := returns_renameNamed tree hnodup (fun name => (hfolders name).mp) hmoves
  exact ⟨names, folders, moves, others, w₂, hnodup, hfolders, hsweeps, hothers, rfl⟩

/-- Renaming folders below some directories is a chain of moves, which does not enter a
frozen folder. -/
theorem returns_renameBelow {count : Nat} {pending : List Location} {renames : List FolderRename}
    (tree : before.disk.IsTree)
    (h : (renameBelow excludes count pending).Returns before renames after) :
    Disk.FolderMoves excludes before.disk renames after.disk ∧
      ∀ top, before.disk.IsFrozen excludes top → (∀ directory ∈ pending, ¬ top <+: directory) →
        ∀ rename ∈ renames, ¬ top <+: rename.old := by
  induction count generalizing pending before renames with
  | zero =>
    obtain ⟨rfl, rfl⟩ := returns_pure.mp h
    exact ⟨.nil _, by simp⟩
  | succ count ih =>
    cases pending with
    | nil =>
      obtain ⟨rfl, rfl⟩ := returns_pure.mp h
      exact ⟨.nil _, by simp⟩
    | cons directory pending =>
      obtain ⟨names, folders, moves, others, middle, -, -, hsweeps, hothers, rfl⟩ :=
        returns_renameBelow_cons tree h
      have hchain := hsweeps.folderMoves
      obtain ⟨hrest, hrestFrozen⟩ := ih (hchain.isTree tree) hothers
      refine ⟨hchain.append hrest, fun top htop hpending => ?_⟩
      rw [List.forall_mem_cons] at hpending
      obtain ⟨hrenames, hentered⟩ := hsweeps.not_prefix tree htop hpending.1
      rw [List.forall_mem_append]
      refine ⟨hrenames, hrestFrozen top (hchain.isFrozen tree htop) ?_⟩
      rw [List.forall_mem_append]
      exact ⟨fun folder hfolder => hentered folder (List.mem_reverse.mp hfolder), hpending.2⟩

/-- Renaming the folders of a project is the chain of moves that is returned. It does not
enter a frozen folder. -/
theorem returns_renameFolders {renames : List FolderRename} (tree : before.disk.IsTree)
    (h : (renameFolders excludes).Returns before renames after) :
    Disk.FolderMoves excludes before.disk renames after.disk ∧
      ∀ top, before.disk.IsFrozen excludes top → ∀ rename ∈ renames, ¬ top <+: rename.old := by
  rw [renameFolders, returns_bind] at h
  obtain ⟨found, middle, hfound, h⟩ := h
  obtain ⟨rfl, rfl⟩ := returns_disk.mp hfound
  obtain ⟨hmoves, hfrozen⟩ := returns_renameBelow tree h
  refine ⟨hmoves, fun top htop => hfrozen top htop ?_⟩
  intro directory hdirectory hprefix
  rw [List.mem_singleton.mp hdirectory, List.prefix_nil] at hprefix
  exact htop.ne_nil hprefix

end Job

/-! ## What stays -/

/-- Whether all folders on the way to a location keep their names, or those do that lie above
a folder that is left alone. -/
def Location.IsSettled (excludes : Text → Bool) (location : Location) : Prop :=
  ∃ above name rest, location = above ++ name :: rest ∧
    (∀ other ∈ above, pascalCase other = other ∨ pascalCase other = []) ∧
    (rest = [] ∨ leavesFolder excludes (above ++ [name]) = true)

/-- What is no folder stays where it is when folders are renamed, if it is settled. -/
theorem Job.carry_of_isSettled {excludes : Text → Bool} {before after : Workspace}
    {renames : List FolderRename} (tree : before.disk.IsTree)
    (h : (renameFolders excludes).Returns before renames after) {location : Location}
    {entry : Entry} (hget : before.disk.get? location = some entry) (hentry : entry ≠ .directory)
    (hsettled : location.IsSettled excludes) : FolderRename.carry renames location = location := by
  obtain ⟨hmoves, hfrozen⟩ := returns_renameFolders tree h
  refine hmoves.carry_eq tree hget hentry fun rename hrename hprefix => ?_
  obtain ⟨above, name, rest, rfl, habove, hrest⟩ := hsettled
  obtain ⟨directory, old, hold, hne, hnot, hentered⟩ := hmoves.ne_pascalCase hrename
  have htop : above ++ [name] <+: above ++ name :: rest := ⟨rest, (List.append_cons ..).symm⟩
  -- The renamed folder lies above the last settled name, at it, or below it.
  have hcases : rename.old <+: above ∨ rename.old = above ++ [name] ∨
      above ++ [name] <+: rename.old := by
    rcases List.prefix_or_prefix_of_prefix hprefix htop with hle | hle
    · rw [List.prefix_concat_iff] at hle
      rcases hle with heq | hle
      · exact .inr (.inl heq)
      · exact .inl hle
    · exact .inr (.inr hle)
  rcases hcases with hle | heq | hle
  · have hmem : old ∈ above := hle.subset (by simp [hold])
    rcases habove old hmem with heq | heq
    · exact absurd heq hnot
    · exact absurd heq hne
  · rcases hrest with rfl | hleft
    · exact heq
    · rw [heq, hleft] at hentered
      cases hentered
  · by_cases hempty : rest = []
    · subst hempty
      exact hprefix.eq_of_length_le hle.length_le
    · have hleft := hrest.resolve_left hempty
      rw [List.append_cons] at hget
      have hfolder := tree.get?_above hempty hget
      refine absurd hle (hfrozen _ ⟨by simp, hfolder, hleft, ?_⟩ rename hrename)
      rwa [List.dropLast_concat]

end Namespacer
