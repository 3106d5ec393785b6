import Namespacer.Proofs.FolderWalks

/-!
# Renaming folders relabels the tree

When the folders of a project have been renamed, every directory is where the directory that it
lay in has been carried to, under its own name or the PascalCase form of it. Files and links
keep their names. No two entries meet, and none is lost or comes from nowhere. The renames that
are reported, made one after another on the old disk, give the new one.

* `Disk.renameAll`: renames on a disk, one after another.
* `Disk.FolderMoves.renameAll_eq`: a chain of moves is what its renames do to the disk.
* `Disk.IsRelabelled`: what renaming all folders does to a tree.
* `Disk.Walks.isRelabelled`: a walk that comes to its end does this.
-/

namespace Namespacer

namespace Disk

open FolderRename

variable {excludes : Text → Bool} {before after : Disk} {renames : List FolderRename}

/-! ## Renames on a disk -/

/-- The disk after folders were renamed, one after another, if no rename is refused. -/
def renameAll (disk : Disk) : List FolderRename → Except DiskFault Disk
  | [] => .ok disk
  | rename :: renames => do
    (← disk.rename rename.old.toPath rename.new.toPath).renameAll renames

/-- A folder that can be renamed is renamed by moving it. -/
theorem CanRename.rename_eq {disk : Disk} {directory : Location} {name : Text}
    (h : disk.CanRename excludes directory name) (tree : disk.IsTree) :
    disk.rename (Location.toPath (directory ++ [name]))
        (Location.toPath (directory ++ [pascalCase name])) =
      .ok (disk.move (directory ++ [name]) (directory ++ [pascalCase name])) := by
  have hother := tree.holdsOther_of_free (tree.isPlace_pascalCase h.folder h.ne_nil) h.free
    (directory ++ [name])
  obtain ⟨-, hmove⟩ | ⟨target, hlink, -⟩ := tree.rename_pascalCase h.folder h.ne_nil h.ne hother
  · exact hmove
  · rw [h.free] at hlink
    cases hlink

/-- A chain of moves is what its renames do to the disk. -/
theorem FolderMoves.renameAll_eq (h : FolderMoves excludes before renames after)
    (tree : before.IsTree) : before.renameAll renames = .ok after := by
  induction h with
  | nil disk => rfl
  | cons hcan _ ih =>
    rw [renameAll, hcan.rename_eq tree]
    exact ih (hcan.isTree tree)

/-! ## Relabelled trees -/

/-- What renaming all folders does to a tree. An entry goes from its location to the one that
the renames carry it to. -/
structure IsRelabelled (excludes : Text → Bool) (before : Disk) (renames : List FolderRename)
    (after : Disk) : Prop where
  /-- Every entry is there afterwards, apart from all others, and there is nothing else. -/
  relabels : before.Relabels after (carry renames)
  /-- A directory keeps its name or gets the PascalCase form of it. -/
  directory : ∀ above name, before.get? (above ++ [name]) = some .directory →
    carry renames (above ++ [name]) = carry renames above ++ [name] ∨
      carry renames (above ++ [name]) = carry renames above ++ [pascalCase name]
  /-- A file or a link keeps its name. -/
  other : ∀ above name entry, before.get? (above ++ [name]) = some entry → entry ≠ .directory →
    carry renames (above ++ [name]) = carry renames above ++ [name]
  /-- What lies on the way to an entry with another name, and the entry itself, is a directory
  that is neither hidden, nor that of a tool, nor excluded in the place of the directory that
  it lies in. -/
  open_of_changed : ∀ above name entry, before.get? (above ++ [name]) = some entry →
    carry renames (above ++ [name]) ≠ carry renames above ++ [name] →
      ∀ outer part, outer ++ [part] <+: above ++ [name] →
        before.get? (outer ++ [part]) = some .directory ∧ isHidden part = false ∧
          isToolDirectory part = false ∧
            excludes (directoryText (carry renames outer ++ [part])) = false
  /-- An entry gets another name in one of the renames, at a time when nothing has that name. -/
  free_of_changed : ∀ above name entry, before.get? (above ++ [name]) = some entry →
    carry renames (above ++ [name]) ≠ carry renames above ++ [name] →
      ∃ earlier later middle,
        renames = earlier ++
          ⟨carry renames above ++ [name], carry renames above ++ [pascalCase name]⟩ :: later ∧
        before.renameAll earlier = .ok middle ∧
        middle.get? (carry renames above ++ [pascalCase name]) = none
  /-- The renames lead from the one disk to the other. -/
  performs : before.renameAll renames = .ok after
  /-- No folder is renamed before the one that it lies in. -/
  topDown : renames.Pairwise fun earlier later => ¬ later.old.IsBelow earlier.new

theorem leavesFolder_concat_eq_false {directory : Location} {name : Text} :
    leavesFolder excludes (directory ++ [name]) = false ↔
      isHidden name = false ∧ isToolDirectory name = false ∧
        excludes (directoryText (directory ++ [name])) = false := by
  simp [leavesFolder, and_assoc]

/-- A folder that has had its turn has one of two names, the second one only if that was free. -/
theorem Turn.carry_cases {location here : Location} {name : Text}
    (h : Turn excludes before after renames location here name) (tree : before.IsTree) :
    carry renames location = here ++ [name] ∨
      carry renames location = here ++ [pascalCase name] ∧
        ∃ earlier later middle,
          renames = earlier ++ ⟨here ++ [name], here ++ [pascalCase name]⟩ :: later ∧
          before.renameAll earlier = .ok middle ∧
          middle.get? (here ++ [pascalCase name]) = none := by
  cases h with
  | keep split done arrives keeps stays =>
    rw [split, carry_append, arrives, stays]
    exact .inl rfl
  | @move middle earlier later split done arrives can stays =>
    refine .inr ⟨?_, earlier, later, middle, split, done.renameAll_eq tree, can.free⟩
    have hmoved := Location.moved_append (here ++ [name]) (here ++ [pascalCase name]) []
    rw [List.append_nil, List.append_nil] at hmoved
    rw [split, carry_append, arrives, carry_cons, hmoved, stays]

/-- A walk from the root that comes to its end relabels the tree. -/
theorem Walks.isRelabelled (h : Walks excludes [] before [[]] renames after)
    (tree : before.IsTree) : before.IsRelabelled excludes renames after := by
  have hpending := before.isPending_root
  have hroot : ([] : Location) ∈ [[]] := List.mem_singleton_self []
  -- An entry with another name has had its turn.
  have hchanged {above : Location} {name : Text} {entry : Entry}
      (hget : before.get? (above ++ [name]) = some entry)
      (hname : carry renames (above ++ [name]) ≠ carry renames above ++ [name]) :
      entry = .directory ∧ Opens excludes renames [] (above ++ [name]) ∧
        Turn excludes before after renames (above ++ [name]) (carry renames above) name := by
    have hcases := h.turn_or_stays tree hpending hroot above hget
    exact hcases.resolve_right fun hstays => hname hstays.2
  refine ⟨h.folderMoves.relabels tree, ?_, ?_, ?_, ?_, h.folderMoves.renameAll_eq tree,
    h.topDown tree hpending⟩
  · intro above name hget
    by_cases hname : carry renames (above ++ [name]) = carry renames above ++ [name]
    · exact .inl hname
    · obtain ⟨-, -, hturn⟩ := hchanged hget hname
      exact (hturn.carry_cases tree).imp_right And.left
  · intro above name entry hget hentry
    by_contra hname
    exact hentry (hchanged hget hname).1
  · intro above name entry hget hname outer part hle
    obtain ⟨hentry, hopens, -⟩ := hchanged hget hname
    refine ⟨?_, leavesFolder_concat_eq_false.mp (hopens outer part hle)⟩
    obtain ⟨rest, hrest⟩ := hle
    rw [hentry, ← hrest] at hget
    cases rest with
    | nil => rwa [List.append_nil] at hget
    | cons first rest => exact tree.get?_above (by simp) hget
  · intro above name entry hget hname
    obtain ⟨-, -, hturn⟩ := hchanged hget hname
    exact ((hturn.carry_cases tree).resolve_left hname).2

end Disk

namespace Job

/-- Renaming the folders of a project relabels its tree by the renames that are returned. Any
predicate may tell which folders are excluded. -/
theorem isRelabelled_of_returns_renameFolders {excludes : Text → Bool} {before after : Workspace}
    {renames : List FolderRename} (tree : before.disk.IsTree)
    (h : (renameFolders excludes).Returns before renames after) :
    before.disk.IsRelabelled excludes renames after.disk :=
  (walks_of_returns_renameFolders tree h).isRelabelled tree

/-- A project with folders that ask for one name, a link, and a hidden folder. -/
def nestedProject : Workspace where
  root := ⟨[], []⟩
  disk.entries := [([".old_code".toList], .directory), ([".old_code".toList, "a_b".toList], .directory),
    (["my_app".toList], .directory), (["my-app".toList], .directory),
    (["my-app".toList, "user_model".toList], .directory),
    (["my-app".toList, "user_model".toList, "a.php".toList], .file [60]),
    (["my_app".toList, "user_model".toList], .link "../my-app".toList)]

/-- The workspace after the folders of the project were renamed. -/
def nestedFolders : Workspace := ((renameFolders fun _ => false).outcome nestedProject).2

/-- The folders of the project that are renamed. -/
def nestedRenames : List FolderRename :=
  [⟨["my-app".toList], ["MyApp".toList]⟩,
    ⟨["MyApp".toList, "user_model".toList], ["MyApp".toList, "UserModel".toList]⟩]

theorem returns_renameFolders_nested :
    (renameFolders fun _ => false).Returns nestedProject nestedRenames nestedFolders :=
  returns_of_toOption (by decide)

theorem isRelabelled_of_returns_renameFolders_nested :
    nestedProject.disk.IsTree ∧
      (renameFolders fun _ => false).Returns nestedProject nestedRenames nestedFolders ∧
      nestedProject.disk.IsRelabelled (fun _ => false) nestedRenames nestedFolders.disk :=
  have tree : nestedProject.disk.IsTree := by decide
  ⟨tree, returns_renameFolders_nested,
    isRelabelled_of_returns_renameFolders tree returns_renameFolders_nested⟩

end Job

end Namespacer
