import Namespacer.Proofs.FolderMoves
import Mathlib.Data.List.Count

/-!
# Folders are renamed once

A folder keeps its name if it has no other one in PascalCase or that one is taken. The walk
that renames folders looks at each of them once, while folders beside and below it still
change. It ends with a disk on which every folder that a walk enters keeps its name, so that
another walk renames nothing.

* `Disk.Sweeps.folders_eq`: the folders to go on with are those that are not left alone, where
  they have been carried to.
* `Disk.IsPending`: the directories that are still to come lie apart.
* `Disk.IsWalked`: the invariant of the walk. What can be entered is settled, or still to come.
* `Disk.Sweeps.isPending`, `Disk.Sweeps.isWalked`, `Disk.Sweeps.workload_lt`: a step keeps both,
  and there is less to come.
* `Job.hasSettledFolders_of_returns_renameFolders`: the walk ends with settled folders.
* `Job.returns_renameFolders_of_hasSettledFolders`: settled folders are not renamed.
-/

namespace Namespacer

/-- Whether a location lies below a directory. -/
def Location.IsBelow (directory location : Location) : Prop :=
  ∃ name rest, location = directory ++ name :: rest

theorem Location.IsBelow.isPrefix {directory location : Location} (h : directory.IsBelow location) :
    directory <+: location := by
  obtain ⟨name, rest, rfl⟩ := h
  exact List.prefix_append _ _

theorem Location.not_isBelow_self (directory : Location) : ¬ directory.IsBelow directory := by
  rintro ⟨name, rest, heq⟩
  simp at heq

theorem Location.IsBelow.trans_isPrefix {directory above location : Location}
    (h : directory.IsBelow above) (hle : above <+: location) : directory.IsBelow location := by
  obtain ⟨name, rest, rfl⟩ := h
  obtain ⟨more, rfl⟩ := hle
  exact ⟨name, rest ++ more, by simp⟩

theorem Location.isBelow_concat_iff {directory location : Location} {name : Text} :
    directory.IsBelow (location ++ [name]) ↔ directory <+: location := by
  constructor
  · intro h
    refine (List.prefix_concat_iff.mp h.isPrefix).resolve_left ?_
    rintro rfl
    exact Location.not_isBelow_self _ h
  · rintro ⟨rest, rfl⟩
    cases rest with
    | nil => exact ⟨name, [], by simp⟩
    | cons first rest => exact ⟨first, rest ++ [name], by simp⟩

/-- Whether a location lies at or below one of some others. -/
def Location.isUnder (tops : List Location) (location : Location) : Bool :=
  tops.any (·.isPrefixOf location)

theorem Location.isUnder_iff {tops : List Location} {location : Location} :
    Location.isUnder tops location = true ↔ ∃ top ∈ tops, top <+: location := by
  simp [Location.isUnder]

/-! ## Renames in one directory -/

namespace FolderRename

/-- All renames are of folders in one directory. -/
def AllIn (directory : Location) (renames : List FolderRename) : Prop :=
  ∀ rename ∈ renames, ∃ name other, rename = ⟨directory ++ [name], directory ++ [other]⟩

variable {directory : Location} {renames : List FolderRename}

/-- What lies below the directory is carried along with the folder that it lies in. -/
theorem AllIn.carry_append (h : AllIn directory renames) (name : Text) :
    ∃ other, ∀ rest, carry renames (directory ++ name :: rest) = directory ++ other :: rest := by
  induction renames generalizing name with
  | nil => exact ⟨name, fun _ => rfl⟩
  | cons rename renames ih =>
    rw [AllIn, List.forall_mem_cons] at h
    obtain ⟨⟨old, new, rfl⟩, hrest⟩ := h
    by_cases hname : old = name
    · obtain ⟨other, hother⟩ := ih hrest new
      refine ⟨other, fun rest => ?_⟩
      rw [carry_cons, ← hother rest, hname, List.append_cons directory name rest,
        List.append_cons directory new rest, Location.moved_append]
    · obtain ⟨other, hother⟩ := ih hrest name
      refine ⟨other, fun rest => ?_⟩
      rw [carry_cons, ← hother rest, Location.moved_of_not_prefix]
      rw [List.prefix_append_right_inj, List.cons_prefix_cons]
      exact fun heq => hname heq.1

/-- What does not lie below the directory stays. -/
theorem AllIn.carry_eq (h : AllIn directory renames) {location : Location}
    (hlocation : ¬ directory.IsBelow location) : carry renames location = location := by
  refine carry_of_not_prefix fun rename hrename hle => hlocation ?_
  obtain ⟨name, other, rfl⟩ := h rename hrename
  obtain ⟨rest, rfl⟩ := hle
  exact ⟨name, rest, (List.append_cons ..).symm⟩

theorem AllIn.isBelow_carry_iff (h : AllIn directory renames) {location : Location} :
    directory.IsBelow (carry renames location) ↔ directory.IsBelow location := by
  by_cases hlocation : directory.IsBelow location
  · obtain ⟨name, rest, rfl⟩ := hlocation
    obtain ⟨other, hother⟩ := h.carry_append name
    exact ⟨fun _ => ⟨name, rest, rfl⟩, fun _ => ⟨other, rest, hother rest⟩⟩
  · rw [h.carry_eq hlocation]

/-- A folder in the directory stays if none of the renames is its own. -/
theorem AllIn.carry_child (h : AllIn directory renames) {name : Text}
    (hname : ∀ rename ∈ renames, rename.old ≠ directory ++ [name]) :
    carry renames (directory ++ [name]) = directory ++ [name] := by
  refine carry_of_not_prefix fun rename hrename hle => hname rename hrename ?_
  obtain ⟨old, new, rfl⟩ := h rename hrename
  rw [List.prefix_append_right_inj, List.cons_prefix_cons] at hle
  rw [hle.1]

end FolderRename

namespace Disk

open FolderRename

variable {excludes : Text → Bool} {before after : Disk} {directory : Location}
  {names : List Text} {folders pending : List Location} {renames : List FolderRename}

namespace FolderMoves

theorem entries_eq (h : FolderMoves excludes before renames after) :
    after.entries = before.entries.map fun entry => (carry renames entry.1, entry.2) := by
  induction h with
  | nil disk => exact (List.map_id' _).symm
  | cons _ _ ih =>
    rw [ih, Disk.move, List.map_map]
    rfl

/-- Renames in one directory leave everything that does not lie below it. -/
theorem get?_of_not_isBelow (h : FolderMoves excludes before renames after) (tree : before.IsTree)
    (hin : AllIn directory renames) {location : Location}
    (hlocation : ¬ directory.IsBelow location) : after.get? location = before.get? location := by
  refine Option.ext fun entry => ⟨fun hget => ?_, fun hget => ?_⟩
  · obtain ⟨source, hsource, hcarry⟩ := (h.relabels tree).onto _ _ hget
    rw [← hcarry, hin.isBelow_carry_iff] at hlocation
    rwa [← hcarry, hin.carry_eq hlocation]
  · have hkept := (h.relabels tree).kept _ _ hget
    rwa [hin.carry_eq hlocation] at hkept

end FolderMoves

/-! ## Sweeps -/

namespace Sweeps

/-- The renames of a sweep are of swept folders that are not left alone and had another name
in PascalCase. -/
theorem rename_cases (h : Sweeps excludes directory before names folders renames after) :
    ∀ rename ∈ renames, ∃ name ∈ names,
      rename = ⟨directory ++ [name], directory ++ [pascalCase name]⟩ ∧ pascalCase name ≠ name ∧
        leavesFolder excludes (directory ++ [name]) = false := by
  have hmono {name : Text} {names : List Text} {renames : List FolderRename}
      (ih : ∀ rename ∈ renames, ∃ name ∈ names,
        rename = ⟨directory ++ [name], directory ++ [pascalCase name]⟩ ∧ pascalCase name ≠ name ∧
          leavesFolder excludes (directory ++ [name]) = false) :
      ∀ rename ∈ renames, ∃ other ∈ name :: names,
        rename = ⟨directory ++ [other], directory ++ [pascalCase other]⟩ ∧
          pascalCase other ≠ other ∧ leavesFolder excludes (directory ++ [other]) = false := by
    intro rename hrename
    obtain ⟨other, hother, hrest⟩ := ih rename hrename
    exact ⟨other, List.mem_cons_of_mem name hother, hrest⟩
  induction h with
  | nil disk => simp
  | leave _ _ ih => exact hmono ih
  | keep _ _ _ ih => exact hmono ih
  | move hcan _ ih =>
    refine List.forall_mem_cons.mpr ⟨?_, hmono ih⟩
    exact ⟨_, List.mem_cons_self, rfl, hcan.ne, hcan.entered⟩

theorem allIn (h : Sweeps excludes directory before names folders renames after) :
    AllIn directory renames := by
  intro rename hrename
  obtain ⟨name, -, heq, -⟩ := h.rename_cases rename hrename
  exact ⟨name, pascalCase name, heq⟩

/-- The folders to go on with lie in the directory. -/
theorem exists_folder (h : Sweeps excludes directory before names folders renames after) :
    ∀ folder ∈ folders, ∃ name, folder = directory ++ [name] := by
  induction h with
  | nil disk => simp
  | leave _ _ ih => exact ih
  | keep _ _ _ ih => exact List.forall_mem_cons.mpr ⟨⟨_, rfl⟩, ih⟩
  | move _ _ ih => exact List.forall_mem_cons.mpr ⟨⟨_, rfl⟩, ih⟩

/-- A folder that is not swept stays where it is. -/
theorem carry_of_not_mem (h : Sweeps excludes directory before names folders renames after)
    {name : Text} (hname : name ∉ names) :
    carry renames (directory ++ [name]) = directory ++ [name] := by
  refine h.allIn.carry_child fun rename hrename heq => hname ?_
  obtain ⟨other, hother, rfl, -⟩ := h.rename_cases rename hrename
  rw [List.append_cancel_left_eq, List.cons.injEq] at heq
  exact heq.1 ▸ hother

/-- A folder that is left alone stays where it is. -/
theorem carry_of_left (h : Sweeps excludes directory before names folders renames after)
    {name : Text} (hleft : leavesFolder excludes (directory ++ [name]) = true) :
    carry renames (directory ++ [name]) = directory ++ [name] := by
  refine h.allIn.carry_child ?_
  rintro rename hrename heq
  obtain ⟨swept, -, rfl, -, hswept⟩ := h.rename_cases rename hrename
  rw [show directory ++ [swept] = directory ++ [name] from heq, hleft] at hswept
  cases hswept

/-- The folders to go on with are those that are not left alone, where they have been carried
to. -/
theorem folders_eq (h : Sweeps excludes directory before names folders renames after)
    (tree : before.IsTree) (hnodup : names.Nodup)
    (hnames : ∀ name ∈ names, before.get? (directory ++ [name]) = some .directory) :
    folders = (names.filter fun name => !leavesFolder excludes (directory ++ [name])).map
      fun name => carry renames (directory ++ [name]) := by
  induction h with
  | nil disk => rfl
  | leave hleft _ ih =>
    rw [List.nodup_cons] at hnodup
    rw [List.forall_mem_cons] at hnames
    rw [List.filter_cons_of_neg (by simp [hleft]), ← ih tree hnodup.2 hnames.2]
  | keep hentered _ rest ih =>
    rw [List.nodup_cons] at hnodup
    rw [List.forall_mem_cons] at hnames
    rw [List.filter_cons_of_pos (by simp [hentered]), List.map_cons,
      rest.carry_of_not_mem hnodup.1, ← ih tree hnodup.2 hnames.2]
  | @move disk after name names folders renames hcan rest ih =>
    rw [List.nodup_cons] at hnodup
    rw [List.forall_mem_cons] at hnames
    have hothers : ∀ other ∈ names, other ≠ name := by
      rintro other hother rfl
      exact hnodup.1 hother
    have hself := Location.moved_append (directory ++ [name]) (directory ++ [pascalCase name]) []
    rw [List.append_nil, List.append_nil] at hself
    rw [List.filter_cons_of_pos (by simp [hcan.entered]), List.map_cons, carry_cons, hself,
      rest.carry_of_not_mem (hcan.pascalCase_not_mem hnames.2)]
    rw [ih (hcan.isTree tree) hnodup.2 (hcan.get?_move_names tree hnodup.1 hnames.2)]
    refine congrArg _ (List.map_congr_left fun other hother => ?_)
    rw [carry_cons, Location.moved_of_not_prefix]
    rw [List.prefix_append_right_inj, List.cons_prefix_cons]
    exact fun heq => hothers other (List.mem_filter.mp hother).1 heq.1.symm

/-- A folder of the directory that is not left alone afterwards is one to go on with. -/
theorem mem_folders (h : Sweeps excludes directory before names folders renames after)
    (tree : before.IsTree) (hnodup : names.Nodup)
    (hnames : ∀ name, name ∈ names ↔ before.get? (directory ++ [name]) = some .directory)
    {name : Text} (hget : after.get? (directory ++ [name]) = some .directory)
    (hentered : leavesFolder excludes (directory ++ [name]) = false) :
    directory ++ [name] ∈ folders := by
  obtain ⟨source, hsource, hcarry⟩ := (h.folderMoves.relabels tree).onto _ _ hget
  have hbelow : directory.IsBelow source := h.allIn.isBelow_carry_iff.mp ⟨name, [], hcarry⟩
  obtain ⟨old, rest, rfl⟩ := hbelow
  obtain ⟨other, hother⟩ := h.allIn.carry_append old
  have hrest : rest = [] := by
    rw [hother, List.append_cancel_left_eq, List.cons.injEq] at hcarry
    exact hcarry.2
  subst hrest
  rw [h.folders_eq tree hnodup fun name hname => (hnames name).mp hname, List.mem_map]
  refine ⟨old, List.mem_filter.mpr ⟨(hnames old).mpr hsource, ?_⟩, hcarry⟩
  -- A folder that is left alone is not carried anywhere, but this one is entered.
  rw [Bool.not_eq_true', ← Bool.not_eq_true]
  intro hleft
  refine Bool.false_ne_true (hentered.symm.trans ?_)
  rw [← hcarry, h.carry_of_left hleft, hleft]

/-- Nothing takes the place of a folder's PascalCase name away. -/
theorem keepsName_of_keepsName
    (h : Sweeps excludes directory before names folders renames after) (tree : before.IsTree)
    {name : Text} (hstable : pascalCase (pascalCase name) = pascalCase name)
    (hkeeps : before.KeepsName directory name) : after.KeepsName directory name := by
  refine hkeeps.imp_right (Or.imp_right fun htaken => ?_)
  obtain ⟨entry, hget⟩ := Option.ne_none_iff_exists'.mp htaken
  have hkept := (h.folderMoves.relabels tree).kept _ _ hget
  rw [h.allIn.carry_child] at hkept
  · rw [hkept]
    exact Option.some_ne_none entry
  · rintro rename hrename heq
    obtain ⟨swept, -, rfl, hne, -⟩ := h.rename_cases rename hrename
    rw [List.append_cancel_left_eq, List.cons.injEq] at heq
    rw [heq.1] at hne
    exact hne hstable

/-- After a sweep every folder to go on with keeps its name. -/
theorem keepsName (h : Sweeps excludes directory before names folders renames after)
    (tree : before.IsTree)
    (hstable : ∀ name ∈ names, pascalCase (pascalCase name) = pascalCase name) :
    ∀ folder ∈ folders, ∃ name, folder = directory ++ [name] ∧ after.KeepsName directory name := by
  induction h with
  | nil disk => simp
  | leave _ _ ih => exact ih tree (List.forall_mem_cons.mp hstable).2
  | keep _ hkeeps rest ih =>
    rw [List.forall_mem_cons] at hstable
    refine List.forall_mem_cons.mpr ⟨⟨_, rfl, ?_⟩, ih tree hstable.2⟩
    exact rest.keepsName_of_keepsName tree hstable.1 hkeeps
  | move hcan _ ih =>
    rw [List.forall_mem_cons] at hstable
    refine List.forall_mem_cons.mpr ⟨⟨_, rfl, ?_⟩, ih (hcan.isTree tree) hstable.2⟩
    exact .inr (.inl hstable.1)

end Sweeps

/-! ## Names that stay -/

/-- What holds of all listed names holds of the names on the way to an entry. -/
theorem forall_name_of_get? {disk : Disk} {P : Text → Prop}
    (h : ∀ entry ∈ disk.entries, ∀ name ∈ entry.1, P name) {location : Location} {entry : Entry}
    (hget : disk.get? location = some entry) : ∀ name ∈ location, P name := by
  by_cases hnil : location = []
  · simp [hnil]
  · exact h _ (mem_of_get? hnil hget)

/-- What holds of all names on a disk still does after folders were renamed, if it passes from
a name to its PascalCase form. -/
theorem FolderMoves.forall_name (h : FolderMoves excludes before renames after)
    (tree : before.IsTree) {P : Text → Prop} (hpascal : ∀ name, P name → P (pascalCase name))
    (hnames : ∀ location entry, before.get? location = some entry → ∀ name ∈ location, P name) :
    ∀ location entry, after.get? location = some entry → ∀ name ∈ location, P name := by
  induction h with
  | nil disk => exact hnames
  | @cons disk after directory old renames hcan _ ih =>
    refine ih (hcan.isTree tree) fun location entry hget name hname => ?_
    obtain ⟨source, hsource, rfl⟩ := (hcan.relabels tree).onto _ _ hget
    have hfolder := hnames _ _ hcan.folder
    rw [List.forall_mem_append, List.forall_mem_singleton] at hfolder
    have hbelow := hnames _ _ hsource
    by_cases hle : directory ++ [old] <+: source
    · obtain ⟨rest, rfl⟩ := hle
      rw [List.forall_mem_append] at hbelow
      rw [Location.moved_append, List.mem_append, List.mem_append, List.mem_singleton] at hname
      rcases hname with (hname | rfl) | hname
      · exact hfolder.1 name hname
      · exact hpascal old hfolder.2
      · exact hbelow.2 name hname
    · rw [Location.moved_of_not_prefix _ hle] at hname
      exact hbelow name hname

/-- Every name on the disk has a PascalCase form that is in PascalCase. -/
def HasStableNames (disk : Disk) : Prop :=
  ∀ location entry, disk.get? location = some entry → ∀ name ∈ location,
    pascalCase (pascalCase name) = pascalCase name

theorem FolderMoves.hasStableNames (h : FolderMoves excludes before renames after)
    (tree : before.IsTree) (hstable : before.HasStableNames) : after.HasStableNames :=
  h.forall_name tree (fun _ hname => congrArg pascalCase hname) hstable

/-- There are only files and directories. -/
def HasNoLinks (disk : Disk) : Prop :=
  ∀ location target, disk.get? location ≠ some (.link target)

theorem FolderMoves.hasNoLinks (h : FolderMoves excludes before renames after)
    (tree : before.IsTree) (hlinks : before.HasNoLinks) : after.HasNoLinks := by
  intro location target hget
  obtain ⟨source, hsource, -⟩ := (h.relabels tree).onto _ _ hget
  exact hlinks source target hsource

/-! ## The invariant of the walk -/

/-- Whether a walk from the root enters a location: it lies in folders none of which is left
alone, and is one. -/
def IsEntered (excludes : Text → Bool) (disk : Disk) (location : Location) : Prop :=
  ∀ above, above <+: location → above ≠ [] →
    disk.get? above = some .directory ∧ leavesFolder excludes above = false

theorem IsEntered.of_isPrefix {disk : Disk} {above location : Location}
    (h : disk.IsEntered excludes location) (hle : above <+: location) :
    disk.IsEntered excludes above :=
  fun other hother => h other (hother.trans hle)

theorem IsEntered.child {disk : Disk} {name : Text}
    (h : disk.IsEntered excludes (directory ++ [name])) :
    disk.get? (directory ++ [name]) = some .directory ∧
      leavesFolder excludes (directory ++ [name]) = false :=
  h _ List.prefix_rfl (by simp)

/-- All folders that a walk enters keep their names. -/
def HasSettledFolders (excludes : Text → Bool) (disk : Disk) : Prop :=
  ∀ directory name, disk.IsEntered excludes (directory ++ [name]) → disk.KeepsName directory name

/-- Directories that are still to be swept: they are there, and none lies at or below another
one. -/
structure IsPending (disk : Disk) (pending : List Location) : Prop where
  folder : ∀ directory ∈ pending, disk.get? directory = some .directory
  apart : pending.Pairwise fun a b => ¬ a <+: b ∧ ¬ b <+: a

theorem isPending_root (disk : Disk) : disk.IsPending [[]] where
  folder := by simp
  apart := List.pairwise_singleton _ _

/-- What is known while the walk goes on: the pending directories lie apart, and a folder that
can be entered keeps its name or lies at or below one of them. -/
structure IsWalked (excludes : Text → Bool) (disk : Disk) (pending : List Location) : Prop where
  folder : ∀ directory ∈ pending, disk.get? directory = some .directory
  apart : pending.Pairwise fun a b => ¬ a <+: b ∧ ¬ b <+: a
  settled : ∀ directory name, disk.IsEntered excludes (directory ++ [name]) →
    disk.KeepsName directory name ∨ ∃ top ∈ pending, top <+: directory

theorem IsWalked.isPending {disk : Disk} (h : disk.IsWalked excludes pending) :
    disk.IsPending pending := ⟨h.folder, h.apart⟩

theorem isWalked_root (excludes : Text → Bool) (disk : Disk) : disk.IsWalked excludes [[]] where
  folder := disk.isPending_root.folder
  apart := disk.isPending_root.apart
  settled directory name _ := .inr ⟨[], by simp⟩

theorem IsWalked.hasSettledFolders {disk : Disk} (h : disk.IsWalked excludes []) :
    disk.HasSettledFolders excludes := by
  intro directory name hentered
  refine (h.settled directory name hentered).resolve_right ?_
  rintro ⟨top, hmem, -⟩
  cases hmem

namespace Sweeps

/-- The folders to go on with lie apart. -/
theorem apart (h : Sweeps excludes directory before names folders renames after)
    (tree : before.IsTree) (hnodup : names.Nodup)
    (hnames : ∀ name ∈ names, before.get? (directory ++ [name]) = some .directory) :
    folders.Pairwise fun a b => ¬ a <+: b ∧ ¬ b <+: a := by
  have hinj : ∀ a ∈ names, ∀ b ∈ names,
      carry renames (directory ++ [a]) <+: carry renames (directory ++ [b]) → a = b := by
    intro a ha b hb hle
    obtain ⟨newA, hA⟩ := h.allIn.carry_append a
    obtain ⟨newB, hB⟩ := h.allIn.carry_append b
    have hplace := hle.eq_of_length (by simp [hA, hB])
    have heq := (h.folderMoves.relabels tree).apart _ _ _ _ (hnames a ha) (hnames b hb) hplace
    rw [List.append_cancel_left_eq, List.cons.injEq] at heq
    exact heq.1
  rw [h.folders_eq tree hnodup hnames, List.pairwise_map]
  refine (hnodup.filter _).imp_of_mem fun {a b} ha hb hne => ?_
  have hmemA := (List.mem_filter.mp ha).1
  have hmemB := (List.mem_filter.mp hb).1
  exact ⟨fun hle => hne (hinj a hmemA b hmemB hle),
    fun hle => hne (hinj b hmemB a hmemA hle).symm⟩

theorem isEntered_iff (h : Sweeps excludes directory before names folders renames after)
    (tree : before.IsTree) {location : Location} (hlocation : ¬ directory.IsBelow location) :
    after.IsEntered excludes location ↔ before.IsEntered excludes location := by
  refine forall_congr' fun above => forall_congr' fun hle => ?_
  rw [h.folderMoves.get?_of_not_isBelow tree h.allIn]
  exact fun hbelow => hlocation (hbelow.trans_isPrefix hle)

/-- After a sweep of a pending directory, the folders to go on with are pending in its place. -/
theorem isPending (h : Sweeps excludes directory before names folders renames after)
    (tree : before.IsTree) (hnodup : names.Nodup)
    (hnames : ∀ name ∈ names, before.get? (directory ++ [name]) = some .directory)
    (hpending : before.IsPending (directory :: pending)) :
    after.IsPending (folders.reverse ++ pending) := by
  obtain ⟨hapart, hothers⟩ := List.pairwise_cons.mp hpending.apart
  refine ⟨?_, ?_⟩
  · rw [List.forall_mem_append]
    refine ⟨fun folder hfolder => ?_, fun top htop => ?_⟩
    · rw [List.mem_reverse, h.folders_eq tree hnodup hnames, List.mem_map] at hfolder
      obtain ⟨name, hname, rfl⟩ := hfolder
      exact (h.folderMoves.relabels tree).kept _ _ (hnames name (List.mem_filter.mp hname).1)
    · rw [h.folderMoves.get?_of_not_isBelow tree h.allIn]
      · exact hpending.folder top (List.mem_cons_of_mem directory htop)
      · exact fun hbelow => (hapart top htop).1 hbelow.isPrefix
  · rw [List.pairwise_append, List.pairwise_reverse]
    refine ⟨(h.apart tree hnodup hnames).imp And.symm, hothers, ?_⟩
    intro folder hfolder top htop
    obtain ⟨name, rfl⟩ := h.exists_folder folder (List.mem_reverse.mp hfolder)
    have hbelow : directory <+: directory ++ [name] := List.prefix_append _ _
    refine ⟨fun hle => (hapart top htop).1 (hbelow.trans hle), fun hle => ?_⟩
    rcases List.prefix_concat_iff.mp hle with rfl | hle
    · exact (hapart _ htop).1 hbelow
    · exact (hapart top htop).2 hle

/-- A sweep of a pending directory keeps the invariant, with the folders to go on with in the
place of the directory. -/
theorem isWalked (h : Sweeps excludes directory before names folders renames after)
    (tree : before.IsTree) (hstable : before.HasStableNames) (hnodup : names.Nodup)
    (hnames : ∀ name, name ∈ names ↔ before.get? (directory ++ [name]) = some .directory)
    (hwalked : before.IsWalked excludes (directory :: pending)) :
    after.IsWalked excludes (folders.reverse ++ pending) := by
  have hfolders : ∀ name ∈ names, before.get? (directory ++ [name]) = some .directory :=
    fun name => (hnames name).mp
  have hkeeps := h.keepsName tree fun name hname =>
    hstable _ _ (hfolders name hname) name (by simp)
  have hpending := h.isPending tree hnodup hfolders hwalked.isPending
  refine ⟨hpending.folder, hpending.apart, ?_⟩
  intro other name hentered
  by_cases hle : directory <+: other
  · -- The directory was swept, and what lies deeper is in a folder to go on with.
    obtain ⟨rest, rfl⟩ := hle
    cases rest with
    | nil =>
      rw [List.append_nil] at hentered ⊢
      obtain ⟨hget, hleft⟩ := hentered.child
      obtain ⟨kept, heq, hkept⟩ := hkeeps _ (h.mem_folders tree hnodup hnames hget hleft)
      rw [List.append_cancel_left_eq, List.cons.injEq] at heq
      exact .inl (heq.1 ▸ hkept)
    | cons first rest =>
      have hfirst : directory ++ [first] <+: directory ++ first :: rest :=
        ⟨rest, (List.append_cons ..).symm⟩
      obtain ⟨hget, hleft⟩ := (hentered.of_isPrefix (hfirst.trans (List.prefix_append _ _))).child
      refine .inr ⟨_, List.mem_append_left _ (List.mem_reverse.mpr ?_), hfirst⟩
      exact h.mem_folders tree hnodup hnames hget hleft
  · -- Outside of the directory nothing has changed.
    have hbelow (other' : Text) : ¬ directory.IsBelow (other ++ [other']) :=
      fun hbelow => hle (Location.isBelow_concat_iff.mp hbelow)
    rcases hwalked.settled other name ((h.isEntered_iff tree (hbelow name)).mp hentered) with
      hkept | ⟨top, htop, hle'⟩
    · refine .inl (hkept.imp_right (Or.imp_right fun htaken => ?_))
      rwa [h.folderMoves.get?_of_not_isBelow tree h.allIn (hbelow _)]
    · rcases List.mem_cons.mp htop with rfl | htop
      · exact absurd hle' hle
      · exact .inr ⟨top, List.mem_append_right _ htop, hle'⟩

end Sweeps

/-! ## The length of the walk -/

/-- The locations of a disk, with that of its root. -/
def places (disk : Disk) : List Location := [] :: disk.entries.map (·.1)

theorem mem_places {disk : Disk} {location : Location} {entry : Entry}
    (h : disk.get? location = some entry) : location ∈ disk.places := by
  by_cases hnil : location = []
  · exact hnil ▸ List.mem_cons_self
  · exact List.mem_cons_of_mem _ (List.mem_map.mpr ⟨_, mem_of_get? hnil h, rfl⟩)

/-- How many locations lie at or below the pending directories. -/
def workload (disk : Disk) (pending : List Location) : Nat :=
  disk.places.countP (Location.isUnder pending)

theorem workload_root (disk : Disk) : disk.workload [[]] = disk.entries.length + 1 := by
  simp [workload, places, Location.isUnder]

theorem IsPending.workload_pos {disk : Disk} (h : disk.IsPending (directory :: pending)) :
    0 < disk.workload (directory :: pending) := by
  rw [workload, List.countP_pos_iff]
  refine ⟨directory, mem_places (h.folder directory List.mem_cons_self), ?_⟩
  exact Location.isUnder_iff.mpr ⟨directory, List.mem_cons_self, List.prefix_rfl⟩

/-- A sweep leaves less to be walked: the directory itself is done with. -/
theorem Sweeps.workload_lt (h : Sweeps excludes directory before names folders renames after)
    (hpending : before.IsPending (directory :: pending)) :
    after.workload (folders.reverse ++ pending) < before.workload (directory :: pending) := by
  have hapart := (List.pairwise_cons.mp hpending.apart).1
  have hplaces : after.places = before.places.map (carry renames) := by
    have hroot : carry renames [] = [] := h.allIn.carry_eq (by simp [Location.IsBelow])
    rw [places, h.folderMoves.entries_eq, places, List.map_cons, hroot, List.map_map, List.map_map]
    rfl
  -- What is pending afterwards was pending before, and the directory itself is not any more.
  have hmono (location : Location)
      (htop : ∃ top ∈ folders.reverse ++ pending, top <+: carry renames location) :
      location ≠ directory ∧ ∃ top ∈ directory :: pending, top <+: location := by
    obtain ⟨top, htop, hle⟩ := htop
    by_cases hbelow : directory.IsBelow location
    · refine ⟨?_, directory, List.mem_cons_self, hbelow.isPrefix⟩
      rintro rfl
      exact Location.not_isBelow_self _ hbelow
    · rw [h.allIn.carry_eq hbelow] at hle
      rcases List.mem_append.mp htop with htop | htop
      · obtain ⟨name, rfl⟩ := h.exists_folder top (List.mem_reverse.mp htop)
        exact absurd (Location.IsBelow.trans_isPrefix ⟨name, [], rfl⟩ hle) hbelow
      · refine ⟨?_, top, List.mem_cons_of_mem directory htop, hle⟩
        rintro rfl
        exact (hapart top htop).2 hle
  have hfilter : after.workload (folders.reverse ++ pending) =
      (before.places.filter (Location.isUnder (directory :: pending))).countP
        (Location.isUnder (folders.reverse ++ pending) ∘ carry renames) := by
    rw [workload, hplaces, List.countP_map, List.countP_filter]
    refine List.countP_congr fun location _ => ?_
    rw [Bool.and_eq_true, Function.comp_apply, Location.isUnder_iff, Location.isUnder_iff]
    exact ⟨fun htop => ⟨htop, (hmono location htop).2⟩, And.left⟩
  rw [hfilter, workload, List.countP_eq_length_filter (l := before.places)]
  refine List.countP_lt_length_iff.mpr ⟨directory, List.mem_filter.mpr ⟨?_, ?_⟩, ?_⟩
  · exact mem_places (hpending.folder directory List.mem_cons_self)
  · exact Location.isUnder_iff.mpr ⟨directory, List.mem_cons_self, List.prefix_rfl⟩
  · rw [← Bool.not_eq_true, Function.comp_apply, Location.isUnder_iff]
    exact fun htop => (hmono directory htop).1 rfl

end Disk

/-! ## The walk -/

namespace Job

variable {excludes : Text → Bool} {before after : Workspace}

/-- A walk that is not cut short ends with settled folders. -/
theorem hasSettledFolders_of_returns_renameBelow {count : Nat} {pending : List Location}
    {renames : List FolderRename} (tree : before.disk.IsTree)
    (hstable : before.disk.HasStableNames) (hwalked : before.disk.IsWalked excludes pending)
    (hcount : before.disk.workload pending ≤ count)
    (h : (renameBelow excludes count pending).Returns before renames after) :
    after.disk.HasSettledFolders excludes := by
  induction count generalizing pending before renames with
  | zero =>
    obtain ⟨rfl, rfl⟩ := returns_pure.mp h
    cases pending with
    | nil => exact hwalked.hasSettledFolders
    | cons directory pending =>
      have hpos := hwalked.isPending.workload_pos
      omega
  | succ count ih =>
    cases pending with
    | nil =>
      obtain ⟨rfl, rfl⟩ := returns_pure.mp h
      exact hwalked.hasSettledFolders
    | cons directory pending =>
      obtain ⟨names, folders, moves, others, middle, hnodup, hfolders, hsweeps, hothers, rfl⟩ :=
        returns_renameBelow_cons tree h
      have hchain := hsweeps.folderMoves
      have hless := hsweeps.workload_lt hwalked.isPending
      exact ih (hchain.isTree tree) (hchain.hasStableNames tree hstable)
        (hsweeps.isWalked tree hstable hnodup hfolders hwalked) (by omega) hothers

theorem hasSettledFolders_of_returns_renameFolders {renames : List FolderRename}
    (tree : before.disk.IsTree) (hstable : before.disk.HasStableNames)
    (h : (renameFolders excludes).Returns before renames after) :
    after.disk.HasSettledFolders excludes := by
  rw [renameFolders, returns_bind] at h
  obtain ⟨found, middle, hfound, h⟩ := h
  obtain ⟨rfl, rfl⟩ := returns_disk.mp hfound
  exact hasSettledFolders_of_returns_renameBelow tree hstable (Disk.isWalked_root _ _)
    (Disk.workload_root _).le h

/-! ## Walking again -/

/-- A folder that keeps its name is not renamed. -/
theorem returns_renameFolder_of_keepsName {directory : Location} {name : Text}
    (tree : before.disk.IsTree) (hlinks : before.disk.HasNoLinks)
    (hkeeps : before.disk.KeepsName directory name) :
    ∃ after, (renameFolder directory name).Returns before (directory ++ [name], []) after ∧
      after.disk = before.disk := by
  by_cases hname : pascalCase name = [] ∨ pascalCase name = name
  · refine ⟨before, ?_, rfl⟩
    rw [renameFolder, if_pos (by simpa using hname)]
    exact returns_pure.mpr ⟨rfl, rfl⟩
  · rw [not_or] at hname
    obtain ⟨entry, hget⟩ :=
      Option.ne_none_iff_exists'.mp ((hkeeps.resolve_left hname.1).resolve_left hname.2)
    have hne : directory ++ [name] ≠ directory ++ [pascalCase name] := by
      simpa using Ne.symm hname.2
    have hother : before.disk.holdsOther (Location.toPath (directory ++ [pascalCase name]))
        (.inside (directory ++ [name])) = true :=
      tree.holdsOther_of_get? hne hget fun target htarget => hlinks _ target (htarget ▸ hget)
    obtain ⟨after, hafter⟩ : ∃ after, (log (.renameTargetExists (Location.toPath
        (directory ++ [name])).toText (pascalCase name))).Returns before () after :=
      ⟨_, returns_modify.mpr rfl⟩
    refine ⟨after, ?_, hafter.disk_eq (keepsDisk_log _)⟩
    rw [renameFolder, if_neg (by simpa using hname), returns_bind]
    refine ⟨_, _, returns_disk.mpr ⟨rfl, rfl⟩, ?_⟩
    rw [if_pos hother, returns_bind]
    exact ⟨(), after, hafter, returns_pure.mpr ⟨rfl, rfl⟩⟩

theorem returns_renameNamed_of_hasSettledFolders {directory : Location} {names : List Text}
    (tree : before.disk.IsTree) (hlinks : before.disk.HasNoLinks)
    (hsettled : before.disk.HasSettledFolders excludes)
    (hentered : before.disk.IsEntered excludes directory)
    (hnames : ∀ name ∈ names, before.disk.get? (directory ++ [name]) = some .directory) :
    ∃ folders after, (renameNamed excludes directory names).Returns before (folders, []) after ∧
      after.disk = before.disk ∧ ∀ folder ∈ folders, before.disk.IsEntered excludes folder := by
  induction names generalizing before with
  | nil => exact ⟨[], before, returns_pure.mpr ⟨rfl, rfl⟩, rfl, by simp⟩
  | cons name names ih =>
    rw [List.forall_mem_cons] at hnames
    by_cases hleft : leavesFolder excludes (directory ++ [name]) = true
    · rw [renameNamed, if_pos hleft]
      exact ih tree hlinks hsettled hentered hnames.2
    · have hchild : before.disk.IsEntered excludes (directory ++ [name]) := by
        intro above hle hnil
        rcases List.prefix_concat_iff.mp hle with rfl | hle
        · exact ⟨hnames.1, by simpa using hleft⟩
        · exact hentered above hle hnil
      obtain ⟨middle, hfolder, hdisk⟩ :=
        returns_renameFolder_of_keepsName tree hlinks (hsettled directory name hchild)
      rw [← hdisk] at tree hlinks hsettled hentered hnames
      obtain ⟨folders, after, hrest, hafter, hfolders⟩ :=
        ih tree hlinks hsettled hentered hnames.2
      refine ⟨(directory ++ [name]) :: folders, after, ?_, hafter.trans hdisk, ?_⟩
      · rw [renameNamed, if_neg hleft, returns_bind]
        refine ⟨_, middle, hfolder, returns_bind.mpr ⟨_, after, hrest, ?_⟩⟩
        exact returns_pure.mpr ⟨rfl, rfl⟩
      · rw [hdisk] at hfolders
        exact List.forall_mem_cons.mpr ⟨hchild, hfolders⟩

theorem returns_renameBelow_of_hasSettledFolders (count : Nat) {pending : List Location}
    (tree : before.disk.IsTree) (hlinks : before.disk.HasNoLinks)
    (hsettled : before.disk.HasSettledFolders excludes)
    (hentered : ∀ directory ∈ pending, before.disk.IsEntered excludes directory) :
    ∃ after, (renameBelow excludes count pending).Returns before [] after ∧
      after.disk = before.disk := by
  induction count generalizing pending before with
  | zero => exact ⟨before, returns_pure.mpr ⟨rfl, rfl⟩, rfl⟩
  | succ count ih =>
    cases pending with
    | nil => exact ⟨before, returns_pure.mpr ⟨rfl, rfl⟩, rfl⟩
    | cons directory pending =>
      rw [List.forall_mem_cons] at hentered
      obtain ⟨names, hnames⟩ : ∃ names, (folderNames directory).Returns before names before :=
        ⟨_, returns_bind.mpr ⟨_, _, returns_disk.mpr ⟨rfl, rfl⟩, returns_pure.mpr ⟨rfl, rfl⟩⟩⟩
      obtain ⟨-, -, hdirectories⟩ := returns_folderNames tree hnames
      obtain ⟨folders, middle, hmoves, hdisk, hfolders⟩ :=
        returns_renameNamed_of_hasSettledFolders tree hlinks hsettled hentered.1
          fun name => (hdirectories name).mp
      rw [← hdisk] at tree hlinks hsettled hentered hfolders
      have hpending : ∀ top ∈ folders.reverse ++ pending, middle.disk.IsEntered excludes top := by
        rw [List.forall_mem_append]
        exact ⟨fun folder hfolder => hfolders folder (List.mem_reverse.mp hfolder), hentered.2⟩
      obtain ⟨after, hrest, hafter⟩ := ih tree hlinks hsettled hpending
      refine ⟨after, ?_, hafter.trans hdisk⟩
      rw [renameBelow, returns_bind]
      refine ⟨names, before, hnames, returns_bind.mpr ⟨_, middle, hmoves, returns_bind.mpr ?_⟩⟩
      exact ⟨[], after, hrest, returns_pure.mpr ⟨rfl, rfl⟩⟩

/-- Settled folders are not renamed. -/
theorem returns_renameFolders_of_hasSettledFolders (tree : before.disk.IsTree)
    (hlinks : before.disk.HasNoLinks) (hsettled : before.disk.HasSettledFolders excludes) :
    ∃ after, (renameFolders excludes).Returns before [] after ∧ after.disk = before.disk := by
  have hroot : ∀ directory ∈ [[]], before.disk.IsEntered excludes directory := by
    simp [Disk.IsEntered]
  obtain ⟨after, hreturns, hdisk⟩ := returns_renameBelow_of_hasSettledFolders
    (before.disk.entries.length + 1) tree hlinks hsettled hroot
  refine ⟨after, ?_, hdisk⟩
  rw [renameFolders, returns_bind]
  exact ⟨_, _, returns_disk.mpr ⟨rfl, rfl⟩, hreturns⟩

end Job

end Namespacer
