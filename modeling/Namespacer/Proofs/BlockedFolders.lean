import Namespacer.Proofs.FailedStages
import Namespacer.Proofs.FolderWalks

/-!
# Folders whose new name is a link

Before a folder is renamed, a look at its new name tells whether something else is there. The
look follows links, and the rename does not. A link that leads nowhere, or to the folder itself,
is therefore not seen, and the rename onto it is refused. So renaming the folders of a project
does come to an end, but it can fail half-way. It does so at such a folder only.

* `Job.outcome_renameBelow_of_le`: the bound on the directories that are visited is never met.
* `Disk.IsBlocked`: a folder that cannot be renamed because of a link that is not seen.
* `Job.fails_renameFolder`, `Job.fails_renameNamed`, `Job.fails_renameBelow`: where renaming
  fails in a folder, in a directory, and below some directories.
* `Job.exists_returns_renameFolders`: without such links, renaming the folders returns.
* `Job.returns_or_stops`: renaming the folders of a project returns, having given every folder
  its turn, or stops at a blocked folder; `Job.not_forall_returns_renameFolders` shows that it
  need not return.
-/

namespace Namespacer

namespace Disk

open FolderRename

variable {excludes : Text → Bool} {before middle after : Disk} {here : Location}
  {pending : List Location} {renames : List FolderRename} {name : Text}

/-! ## Blocked folders -/

/-- A folder that is not left alone and is to get another name, which is that of a link. At the
end of the link there is nothing, or the folder itself. -/
structure IsBlocked (excludes : Text → Bool) (disk : Disk) (directory : Location) (name : Text) :
    Prop where
  folder : disk.get? (directory ++ [name]) = some .directory
  entered : leavesFolder excludes (directory ++ [name]) = false
  ne_nil : pascalCase name ≠ []
  ne : pascalCase name ≠ name
  link : ∃ target, disk.get? (directory ++ [pascalCase name]) = some (.link target)
  unseen : ∀ found ∈ disk.find? (Location.toPath (directory ++ [pascalCase name])),
    found.1 = .inside (directory ++ [name])

theorem holdsOther_eq_false_iff {disk : Disk} {path : Path} {place : Place} :
    disk.holdsOther path place = false ↔ ∀ found ∈ disk.find? path, found.1 = place := by
  rw [holdsOther]
  cases disk.find? path <;> simp

/-- A walk that has stopped in the sweep of a directory, before a folder that is blocked. -/
structure StopsBefore (excludes : Text → Bool) (before : Disk) (pending : List Location)
    (renames : List FolderRename) (after : Disk) (here : Location) (name : Text) : Prop where
  way : ∃ middle waiting earlier others swept folders,
    Walks excludes (here :: waiting) before pending earlier middle ∧
      Sweeps excludes here middle swept folders others after ∧ renames = earlier ++ others ∧
        name ∉ swept ∧ ∀ other ∈ name :: swept, middle.get? (here ++ [other]) = some .directory
  blocked : after.IsBlocked excludes here name

/-- What is no folder has not been moved in a sweep, if it is in the directory afterwards. -/
theorem Sweeps.get?_of_ne_directory {directory : Location} {names : List Text}
    {folders : List Location} (h : Sweeps excludes directory before names folders renames after)
    (tree : before.IsTree)
    (hnames : ∀ name ∈ names, before.get? (directory ++ [name]) = some .directory) {entry : Entry}
    (hget : after.get? (directory ++ [name]) = some entry) (hentry : entry ≠ .directory) :
    before.get? (directory ++ [name]) = some entry ∧
      carry renames (directory ++ [name]) = directory ++ [name] := by
  obtain ⟨source, hsource, hcarry⟩ := (h.folderMoves.relabels tree).onto _ _ hget
  obtain ⟨first, rest, rfl⟩ := h.allIn.isBelow_carry_iff.mp ⟨name, [], hcarry⟩
  obtain ⟨other, hother⟩ := h.allIn.carry_append first
  have hrest : rest = [] := by
    rw [hother, List.append_cancel_left_eq, List.cons.injEq] at hcarry
    exact hcarry.2
  subst hrest
  have hfirst : first ∉ names := by
    intro hmem
    rw [hnames first hmem] at hsource
    exact hentry (Option.some.inj hsource).symm
  have hstays := h.carry_of_not_mem hfirst
  rw [hcarry, List.append_cancel_left_eq, List.cons.injEq] at hstays
  rw [hstays.1]
  exact ⟨hsource, h.carry_of_not_mem hfirst⟩

/-- A blocked folder was there from the start under its name, and so was the link beside it. -/
theorem StopsBefore.exists_source (h : StopsBefore excludes before pending renames after here name)
    (tree : before.IsTree) (hpending : before.IsPending pending) :
    FolderMoves excludes before renames after ∧ ∃ above target,
      carry renames above = here ∧
      before.get? (above ++ [name]) = some .directory ∧
      carry renames (above ++ [name]) = here ++ [name] ∧
      before.get? (above ++ [pascalCase name]) = some (.link target) ∧
      carry renames (above ++ [pascalCase name]) = here ++ [pascalCase name] := by
  obtain ⟨middle, waiting, earlier, others, swept, folders, walks, sweeps, rfl, hname, hfolders⟩ :=
    h.way
  obtain ⟨target, hlink⟩ := h.blocked.link
  obtain ⟨above, -, hcarry, hget⟩ := walks.exists_source tree hpending List.mem_cons_self
  rw [List.forall_mem_cons] at hfolders
  obtain ⟨hlink', hstays⟩ := sweeps.get?_of_ne_directory (walks.folderMoves.isTree tree)
    hfolders.2 hlink (by simp)
  refine ⟨walks.folderMoves.append sweeps.folderMoves, above, target, ?_, ?_, ?_, ?_, ?_⟩
  · have habove := hcarry []
    rw [List.append_nil, List.append_nil] at habove
    rw [carry_append, habove, sweeps.allIn.carry_eq (Location.not_isBelow_self here)]
  · rw [← hget, hfolders.1]
  · rw [carry_append, hcarry, sweeps.carry_of_not_mem hname]
  · rw [← hget, hlink']
  · rw [carry_append, hcarry, hstays]

end Disk

namespace Job

open FolderRename

variable {α β : Type} {excludes : Text → Bool} {before after : Workspace} {failure : Failure}

/-! ## The bound of the walk -/

theorem outcome_bind_congr {job : Job α} {next next' : α → Job β}
    (h : ∀ a middle, job.Returns before a middle →
      (next a).outcome middle = (next' a).outcome middle) :
    (job >>= next).outcome before = (job >>= next').outcome before := by
  rw [outcome_bind, outcome_bind]
  rcases hjob : job.outcome before with ⟨failure | a, middle⟩
  · rfl
  · exact h a middle hjob

/-- One visit more is none if there are enough. -/
theorem outcome_renameBelow_succ {count : Nat} {pending : List Location}
    (tree : before.disk.IsTree) (hpending : before.disk.IsPending pending)
    (hcount : before.disk.workload pending ≤ count) :
    (renameBelow excludes (count + 1) pending).outcome before =
      (renameBelow excludes count pending).outcome before := by
  induction count generalizing pending before with
  | zero =>
    cases pending with
    | nil => rfl
    | cons directory pending =>
      have hpos := hpending.workload_pos
      omega
  | succ count ih =>
    cases pending with
    | nil => rfl
    | cons directory pending =>
      rw [renameBelow, renameBelow]
      refine outcome_bind_congr fun names w₁ hnames => ?_
      obtain ⟨rfl, hnodup, hfolders⟩ := returns_folderNames tree hnames
      have hlisted : ∀ name ∈ names, w₁.disk.get? (directory ++ [name]) = some .directory :=
        fun name => (hfolders name).mp
      refine outcome_bind_congr fun found w₂ hmoves => ?_
      obtain ⟨folders, moves⟩ := found
      have hsweeps := returns_renameNamed tree hnodup hlisted hmoves
      have hless := hsweeps.workload_lt hpending
      simp only [outcome_bind]
      rw [ih (hsweeps.folderMoves.isTree tree) (hsweeps.isPending tree hnodup hlisted hpending)
        (by omega)]

/-- The bound on the directories that are visited makes no difference if it is large enough. -/
theorem outcome_renameBelow_of_le {count bound : Nat} {pending : List Location}
    (tree : before.disk.IsTree) (hpending : before.disk.IsPending pending)
    (hcount : before.disk.workload pending ≤ count) (hle : count ≤ bound) :
    (renameBelow excludes bound pending).outcome before =
      (renameBelow excludes count pending).outcome before := by
  induction hle with
  | refl => rfl
  | step hle ih =>
    rw [outcome_renameBelow_succ tree hpending (hcount.trans hle), ih]

/-! ## Failing -/

theorem not_fails_folderNames {directory : Location} :
    ¬ (folderNames directory).Fails before failure after := by
  rw [folderNames, fails_bind]
  rintro (h | ⟨_, _, _, h⟩)
  · exact not_fails_disk h
  · exact not_fails_pure h

theorem fails_rename {oldPath newPath : Path}
    (h : (rename oldPath newPath).Fails before failure after) :
    after = before ∧ ∃ fault, before.disk.rename oldPath newPath = .error fault ∧
      failure = .disk fault (before.root.append oldPath) (some (before.root.append newPath)) := by
  rw [rename, fails_bind] at h
  obtain ⟨found, middle, hfound, h⟩ := h.resolve_left not_fails_disk
  obtain ⟨rfl, rfl⟩ := returns_disk.mp hfound
  cases hrename : middle.disk.rename oldPath newPath with
  | ok renamed =>
    rw [hrename] at h
    cases h
  | error fault =>
    rw [hrename] at h
    cases h
    exact ⟨rfl, fault, rfl, rfl⟩

/-- How renaming a folder fails that is blocked. -/
def blockedFailure (root : Path) (directory : Location) (name : Text) : Failure :=
  .disk .notDirectory (root.append (Location.toPath (directory ++ [name])))
    (some (root.append (Location.toPath (directory ++ [pascalCase name]))))

/-- Renaming a folder fails only if it is blocked. -/
theorem fails_renameFolder {directory : Location} {name : Text} (tree : before.disk.IsTree)
    (hfolder : before.disk.get? (directory ++ [name]) = some .directory)
    (hentered : leavesFolder excludes (directory ++ [name]) = false)
    (h : (renameFolder directory name).Fails before failure after) :
    after = before ∧ before.disk.IsBlocked excludes directory name ∧
      failure = blockedFailure before.root directory name := by
  rw [renameFolder] at h
  split at h
  · exact absurd h not_fails_pure
  rename_i hname
  rw [Bool.or_eq_true, not_or, List.isEmpty_iff, beq_iff_eq] at hname
  rw [fails_bind] at h
  obtain ⟨found, middle, hfound, h⟩ := h.resolve_left not_fails_disk
  obtain ⟨rfl, rfl⟩ := returns_disk.mp hfound
  split at h
  · rw [fails_bind] at h
    rcases h with h | ⟨_, _, _, h⟩
    · exact absurd h not_fails_log
    · exact absurd h not_fails_pure
  rename_i hother
  rw [Bool.not_eq_true] at hother
  rw [fails_bind] at h
  rcases h with h | ⟨_, _, _, h⟩
  · obtain ⟨rfl, fault, hrefused, rfl⟩ := fails_rename h
    obtain ⟨-, hmove⟩ | ⟨target, hlink, hrefused'⟩ :=
      tree.rename_pascalCase hfolder hname.1 hname.2 hother
    · rw [hmove] at hrefused
      cases hrefused
    · rw [hrefused', Except.error.injEq] at hrefused
      refine ⟨rfl, ⟨hfolder, hentered, hname.1, hname.2, ⟨target, hlink⟩, ?_⟩, ?_⟩
      · exact Disk.holdsOther_eq_false_iff.mp hother
      · rw [← hrefused, blockedFailure]
  · exact absurd h not_fails_pure

/-- Renaming folders of one directory fails at one that is blocked, after a sweep of those
before it. -/
theorem fails_renameNamed {directory : Location} {names : List Text} (tree : before.disk.IsTree)
    (hnodup : names.Nodup)
    (hnames : ∀ name ∈ names, before.disk.get? (directory ++ [name]) = some .directory)
    (h : (renameNamed excludes directory names).Fails before failure after) :
    ∃ swept name others folders renames, names = swept ++ name :: others ∧
      Disk.Sweeps excludes directory before.disk swept folders renames after.disk ∧
        after.disk.IsBlocked excludes directory name ∧
          failure = blockedFailure after.root directory name := by
  induction names generalizing before with
  | nil => exact absurd h not_fails_pure
  | cons name names ih =>
    rw [List.nodup_cons] at hnodup
    rw [List.forall_mem_cons] at hnames
    rw [renameNamed] at h
    split at h
    · rename_i hleft
      obtain ⟨swept, stopped, others, folders, renames, rfl, hsweeps, hrest⟩ :=
        ih tree hnodup.2 hnames.2 h
      exact ⟨name :: swept, stopped, others, folders, renames, rfl, .leave hleft hsweeps, hrest⟩
    rename_i hentered
    rw [Bool.not_eq_true] at hentered
    rw [fails_bind] at h
    rcases h with h | ⟨⟨folder, moves⟩, w₁, hfolder, h⟩
    · obtain ⟨rfl, hblocked, rfl⟩ := fails_renameFolder tree hnames.1 hentered h
      exact ⟨[], name, names, [], [], rfl, .nil _, hblocked, rfl⟩
    rw [fails_bind] at h
    rcases h with h | ⟨_, _, _, h⟩
    · rcases returns_renameFolder tree hnames.1 hentered hfolder with
        ⟨rfl, rfl, hdisk, hkeeps⟩ | ⟨hcan, rfl, rfl, hdisk⟩
      · obtain ⟨swept, stopped, others, folders, renames, rfl, hsweeps, hrest⟩ :=
          ih (hdisk ▸ tree) hnodup.2 (hdisk ▸ hnames.2) h
        rw [hdisk] at hsweeps
        exact ⟨name :: swept, stopped, others, _, _, rfl, .keep hentered hkeeps hsweeps, hrest⟩
      · have hothers : ∀ other ∈ names,
            w₁.disk.get? (directory ++ [other]) = some .directory :=
          hdisk ▸ hcan.get?_move_names tree hnodup.1 hnames.2
        obtain ⟨swept, stopped, others, folders, renames, rfl, hsweeps, hrest⟩ :=
          ih (hdisk ▸ hcan.isTree tree) hnodup.2 hothers h
        rw [hdisk] at hsweeps
        exact ⟨name :: swept, stopped, others, _, _, rfl, .move hcan hsweeps, hrest⟩
    · exact absurd h not_fails_pure

/-- Renaming folders below some directories fails at one that is blocked, after a walk up to the
directory that it is in. -/
theorem fails_renameBelow {count : Nat} {pending : List Location} (tree : before.disk.IsTree)
    (hpending : before.disk.IsPending pending)
    (h : (renameBelow excludes count pending).Fails before failure after) :
    ∃ renames here name, before.disk.StopsBefore excludes pending renames after.disk here name ∧
      failure = blockedFailure after.root here name := by
  induction count generalizing pending before with
  | zero => exact absurd h not_fails_pure
  | succ count ih =>
    cases pending with
    | nil => exact absurd h not_fails_pure
    | cons directory pending =>
      rw [renameBelow] at h
      rw [fails_bind] at h
      rcases h with h | ⟨names, w₁, hnames, h⟩
      · exact absurd h not_fails_folderNames
      obtain ⟨rfl, hnodup, hfolders⟩ := returns_folderNames tree hnames
      have hlisted : ∀ name ∈ names, w₁.disk.get? (directory ++ [name]) = some .directory :=
        fun name => (hfolders name).mp
      rw [fails_bind] at h
      rcases h with h | ⟨⟨folders, moves⟩, w₂, hmoves, h⟩
      · obtain ⟨swept, name, others, folders, renames, rfl, hsweeps, hblocked, rfl⟩ :=
          fails_renameNamed tree hnodup hlisted h
        refine ⟨renames, directory, name, ⟨?_, hblocked⟩, rfl⟩
        refine ⟨_, pending, [], renames, swept, folders, .stop _, hsweeps, rfl, ?_, ?_⟩
        · have hname := (List.nodup_cons.mp (List.nodup_middle.mp hnodup)).1
          exact fun hswept => hname (List.mem_append_left others hswept)
        · intro other hother
          refine hlisted other ?_
          rw [List.mem_append, List.mem_cons]
          rcases List.mem_cons.mp hother with rfl | hother
          · exact .inr (.inl rfl)
          · exact .inl hother
      rw [fails_bind] at h
      rcases h with h | ⟨_, _, _, h⟩
      · have hsweeps := returns_renameNamed tree hnodup hlisted hmoves
        obtain ⟨renames, here, name, ⟨hway, hblocked⟩, rfl⟩ :=
          ih (hsweeps.folderMoves.isTree tree)
            (hsweeps.isPending tree hnodup hlisted hpending) h
        obtain ⟨middle, waiting, earlier, others, swept, rest, walks, hrest⟩ := hway
        obtain ⟨hsweeps', rfl, hswept⟩ := hrest
        refine ⟨moves ++ (earlier ++ others), here, name, ⟨?_, hblocked⟩, rfl⟩
        refine ⟨middle, waiting, moves ++ earlier, others, swept, rest, ?_, hsweeps', ?_, hswept⟩
        · exact .sweep hnodup hfolders hsweeps walks
        · rw [List.append_assoc]
      · exact absurd h not_fails_pure

/-! ## Returning or stopping -/

/-- Renaming the folders of a project stops half-way. Some renames were made, each onto a free
name, and then one is refused: that of a folder with a link beside it, both of which were there
from the start under their names. -/
structure StopsAt (excludes : Text → Bool) (before : Workspace) (renames : List FolderRename)
    (stopped : Workspace) (above : Location) (name : Text) : Prop where
  fails : (renameFolders excludes).Fails before
    (blockedFailure stopped.root (carry renames above) name) stopped
  moves : Disk.FolderMoves excludes before.disk renames stopped.disk
  folder : before.disk.get? (above ++ [name]) = some .directory
  link : ∃ target, before.disk.get? (above ++ [pascalCase name]) = some (.link target)
  folder_stays : carry renames (above ++ [name]) = carry renames above ++ [name]
  link_stays : carry renames (above ++ [pascalCase name]) =
    carry renames above ++ [pascalCase name]
  blocked : stopped.disk.IsBlocked excludes (carry renames above) name

theorem exists_stopsAt (tree : before.disk.IsTree)
    (h : (renameFolders excludes).Fails before failure after) :
    ∃ renames above name, StopsAt excludes before renames after above name := by
  have hfails := h
  rw [renameFolders, fails_bind] at h
  obtain ⟨found, middle, hfound, h⟩ := h.resolve_left not_fails_disk
  obtain ⟨rfl, rfl⟩ := returns_disk.mp hfound
  have hpending := middle.disk.isPending_root
  obtain ⟨renames, here, name, hstops, rfl⟩ := fails_renameBelow tree hpending h
  obtain ⟨hmoves, above, target, rfl, hfolder, hstays, hlink, hstays'⟩ :=
    hstops.exists_source tree hpending
  exact ⟨renames, above, name, hfails, hmoves, hfolder, ⟨target, hlink⟩, hstays, hstays',
    hstops.blocked⟩

/-- Renaming the folders of a project returns if no folder lies beside a link that has its
PascalCase name. -/
theorem exists_returns_renameFolders (tree : before.disk.IsTree)
    (hlinks : ∀ above name target, before.disk.get? (above ++ [name]) = some .directory →
      before.disk.get? (above ++ [pascalCase name]) ≠ some (.link target)) :
    ∃ renames after, (renameFolders excludes).Returns before renames after := by
  refine (returns_or_fails _ before).resolve_right ?_
  rintro ⟨failure, stopped, hfails⟩
  obtain ⟨renames, above, name, hstops⟩ := exists_stopsAt tree hfails
  obtain ⟨target, hlink⟩ := hstops.link
  exact hlinks above name target hstops.folder hlink

/-- Renaming the folders of a project comes to an end, without a bound on the directories that
are visited. Either it returns, and every folder that is not left alone has had its turn, at
which it kept its name if that was the only one or the new one was taken. Or it stops at a
folder whose new name is that of a link with nothing, or the folder itself, at its end. -/
theorem returns_or_stops (excludes : Text → Bool) (tree : before.disk.IsTree) :
    (∀ count, before.disk.entries.length < count →
      (renameBelow excludes count [[]]).outcome before = (renameFolders excludes).outcome before) ∧
    ((∃ renames after, (renameFolders excludes).Returns before renames after ∧
        Disk.FolderMoves excludes before.disk renames after.disk ∧
        ∀ above name, before.disk.get? (above ++ [name]) = some .directory →
          Disk.Opens excludes renames [] (above ++ [name]) →
            Disk.Turn excludes before.disk after.disk renames (above ++ [name])
              (carry renames above) name) ∨
      ∃ renames stopped above name, StopsAt excludes before renames stopped above name) := by
  have hpending := before.disk.isPending_root
  have hroot : ([] : Location) ∈ [[]] := List.mem_singleton_self []
  refine ⟨fun count hcount => ?_, ?_⟩
  · have hbound : before.disk.workload [[]] ≤ before.disk.entries.length + 1 :=
      before.disk.workload_root.le
    have hdisk : disk.outcome before = (.ok before.disk, before) := rfl
    rw [renameFolders, outcome_bind, hdisk, outcome_renameBelow_of_le tree hpending hbound hcount]
  · rcases returns_or_fails (renameFolders excludes) before with
      ⟨renames, after, h⟩ | ⟨failure, stopped, h⟩
    · have hwalks := walks_of_returns_renameFolders tree h
      refine .inl ⟨renames, after, h, hwalks.folderMoves, fun above name hget hopens => ?_⟩
      rcases hwalks.turn_or_stays tree hpending hroot above hget with hturn | hstays
      · exact hturn.2.2
      · exact absurd hopens (hstays.1 rfl)
    · obtain ⟨renames, above, name, hstops⟩ := exists_stopsAt tree h
      exact .inr ⟨renames, stopped, above, name, hstops⟩

/-- A project with a folder and a link that has its PascalCase name and leads nowhere. -/
def linkedProject : Workspace where
  root := ⟨[], []⟩
  disk.entries := [(["old_code".toList], .directory), (["OldCode".toList], .link "nowhere".toList)]

theorem not_returns_renameFolders_linked {renames : List FolderRename} :
    ¬ (renameFolders fun _ => false).Returns linkedProject renames after := by
  have hnone : ((renameFolders fun _ => false).outcome linkedProject).1.toOption = none := by
    decide
  intro h
  rw [h] at hnone
  cases hnone

theorem not_forall_returns_renameFolders :
    ¬ ∀ (excludes : Text → Bool) (before : Workspace), before.disk.IsTree →
      ∃ renames after, (renameFolders excludes).Returns before renames after := by
  intro h
  obtain ⟨renames, after, hreturns⟩ := h (fun _ => false) linkedProject (by decide)
  exact not_returns_renameFolders_linked hreturns

/-- A link out of the project to a directory is seen: the folder keeps its name. -/
example :
    ((renameFolders fun _ => false).outcome
      { root := ⟨"/".toList, ["home".toList]⟩
        disk.entries := [(["old_code".toList], .directory), (["OldCode".toList], .link "/tmp".toList)]
        disk.around := ⟨["home".toList], [(["tmp".toList], .directory)]⟩ }).1.toOption = some [] := by
  decide

theorem returns_or_stops_linked :
    linkedProject.disk.IsTree ∧ ∃ renames stopped above name,
      StopsAt (fun _ => false) linkedProject renames stopped above name := by
  have tree : linkedProject.disk.IsTree := by decide
  refine ⟨tree, (returns_or_stops _ tree).2.resolve_left ?_⟩
  rintro ⟨renames, after, hreturns, -⟩
  exact not_returns_renameFolders_linked hreturns

end Job

end Namespacer
