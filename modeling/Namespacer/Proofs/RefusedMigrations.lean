import Namespacer.Command
import Namespacer.Proofs.DiskViews
import Namespacer.Proofs.FailedStages
import Namespacer.Proofs.MigrationRuns
import Namespacer.StandardTools

/-!
# Migrations that are refused

A command line can be refused before a migration begins, by a stage of it, or after it, because
there was nothing to migrate. What was done to the disk until then stays done.

* `Site.showsSame_topDisk`: a command leaves the file system that its directory shows.
* `Invocation.migrateEnding`: all the ways in which a command line that migrates can end.
* `Refusal.leaves_runArguments`: what each refusal leaves; `Refusal.not_leavesAll` shows that
  those by a stage, or after all stages, do not leave everything as it was.
-/

namespace Namespacer

variable {tools : Tools}

/-! ## The directory of a command -/

namespace Site

variable {site : Site}

theorem top_of_find? {top : Workspace} {argument : Text} (h : find? top argument = some site) :
    site.top = top ∧ top.disk.get? site.location = some .directory := by
  rw [find?] at h
  split at h
  · simp only [Option.bind_eq_bind, Option.bind_eq_some_iff] at h
    obtain ⟨inner, -, h⟩ := h
    split at h
    · split at h
      · rename_i hdirectory
        cases h
        exact ⟨rfl, hdirectory⟩
      · cases h
    · cases h
  · cases h

/-- The directory of a site is where it is from the top on. -/
theorem fromTop?_location (h : site.top.disk.get? site.location = some .directory) :
    site.top.disk.fromTop? (site.top.disk.around.home ++ site.location) = some .directory := by
  rw [Disk.fromTop?_append, h]

theorem isTree_workspace (tree : site.top.disk.IsTree)
    (h : site.top.disk.get? site.location = some .directory) : site.workspace.disk.IsTree :=
  tree.ofWhole_whole (fromTop?_location h)

/-- To begin with, the directory of a site shows the file system as it is. -/
theorem showsSame_workspace (tree : site.top.disk.IsTree)
    (h : site.top.disk.get? site.location = some .directory) :
    site.workspace.disk.ShowsSame site.top.disk :=
  tree.showsSame_ofWhole (fromTop?_location h)

/-- A command leaves the file system that its directory shows. -/
theorem showsSame_topDisk (site : Site) {disk : Disk} (tree : disk.IsTree)
    (h : disk.around.home = site.workspace.disk.around.home) :
    (site.topDisk disk).ShowsSame disk := by
  refine tree.showsSame_ofWhole (Disk.fromTop?_of_isPrefix ?_)
  rw [h]
  exact List.prefix_append _ _

end Site

/-! ## Ends of a command line -/

/-- The workspace after the user was told a line. -/
def Workspace.telling (workspace : Workspace) (line : Text) : Workspace :=
  { workspace with notices := workspace.notices ++ [.told line] }

namespace Invocation

open Job

/-- The ways in which a command line that migrates can end. -/
inductive MigrateEnding (tools : Tools) (invocation : Invocation) (before : Workspace) :
    Ending × Workspace → Prop where
  | invalid {message : Text} (h : invocation.checkedSettings = .error message) :
      MigrateEnding tools invocation before
        ({ code := 1 }, before.telling ("Error: ".toList ++ message))
  | failed {settings : Settings} {failure : Failure} {after : Workspace}
      (hsettings : invocation.checkedSettings = .ok settings)
      (h : (migrate tools settings).Fails before failure after) :
      MigrateEnding tools invocation before ({ code := 1, failure }, after)
  | notInstalled {settings : Settings} {failure : Failure} {after : Workspace}
      (hsettings : invocation.checkedSettings = .ok settings)
      (h : (migrate tools settings).Fails before failure after) :
      MigrateEnding tools invocation before
        ({ code := 1 }, after.telling ("Error: ".toList ++ failure.message))
  | noFiles {settings : Settings} {after : Workspace}
      (hsettings : invocation.checkedSettings = .ok settings)
      (h : (migrate tools settings).Returns before [] after) :
      MigrateEnding tools invocation before ({ code := 1 }, after.telling "No PHP files found.")
  | done {settings : Settings} {files : List SourceFile} {after : Workspace}
      (hsettings : invocation.checkedSettings = .ok settings)
      (h : (migrate tools settings).Returns before files after) (hfiles : files ≠ []) :
      MigrateEnding tools invocation before
        ({ code := 0, printed := summary files ++ ['\n'] }, after)

/-- Migrating for a command line, by the outcome of the migration. -/
theorem outcome_runMigrate (settings : Settings) (before : Workspace) :
    (runMigrate tools settings).outcome before =
      match (migrate tools settings).outcome before with
      | (.ok files, after) => (endWithFiles summary files).outcome after
      | (.error .installerMissing, after) =>
        (.ok { code := 1 }, after.telling ("Error: ".toList ++ Failure.installerMissing.message))
      | (.error (.installerFailed code), after) =>
        (.ok { code := 1 },
          after.telling ("Error: ".toList ++ (Failure.installerFailed code).message))
      | (.error failure, after) => (.error failure, after) := by
  rw [runMigrate, outcome_bind, outcome_tryCatch, outcome_bind]
  rcases (migrate tools settings).outcome before with ⟨failure | files, after⟩
  · cases failure <;> rfl
  · rfl

theorem run_of_outcome {invocation : Invocation} {before after : Workspace}
    {result : Except Failure Ending} (h : (invocation.job tools).outcome before = (result, after)) :
    invocation.run tools before =
      (match result with
        | .ok ending => ending
        | .error failure => { code := 1, failure }, after) := by
  have hrun : (invocation.job tools).run.run before = (result, after) := h
  rw [run, hrun]
  cases result <;> rfl

theorem migrateEnding {invocation : Invocation} (haction : invocation.action = .migrate)
    (before : Workspace) :
    MigrateEnding tools invocation before (invocation.run tools before) := by
  cases hsettings : invocation.checkedSettings with
  | error message =>
    have houtcome : (invocation.job tools).outcome before =
        (.ok { code := 1 }, before.telling ("Error: ".toList ++ message)) := by
      rw [Invocation.job, hsettings]
      rfl
    rw [run_of_outcome houtcome]
    exact .invalid hsettings
  | ok settings =>
    have hjob : invocation.job tools = runMigrate tools settings := by
      simp only [Invocation.job, hsettings, haction]
    have houtcome := hjob ▸ outcome_runMigrate settings before
    rcases hmigrate : (migrate tools settings).outcome before with ⟨failure | files, after⟩
    · rw [hmigrate] at houtcome
      split at houtcome
      · rename_i heq
        cases heq
      · rename_i heq
        cases heq
        rw [run_of_outcome houtcome]
        exact .notInstalled hsettings hmigrate
      · rename_i heq
        cases heq
        rw [run_of_outcome houtcome]
        exact .notInstalled hsettings hmigrate
      · rename_i heq
        cases heq
        rw [run_of_outcome houtcome]
        exact .failed hsettings hmigrate
    · rw [hmigrate] at houtcome
      simp only [endWithFiles] at houtcome
      split at houtcome
      · rename_i hfiles
        rw [List.isEmpty_iff] at hfiles
        rw [run_of_outcome houtcome]
        exact .noFiles hsettings (hfiles ▸ hmigrate)
      · rename_i hfiles
        rw [List.isEmpty_iff] at hfiles
        rw [run_of_outcome houtcome]
        exact .done hsettings hmigrate hfiles

end Invocation

/-! ## Settings of a command line -/

theorem Replacement.search_of_ofSpec? {spec : Text} {rule : Replacement}
    (h : Replacement.ofSpec? spec = some rule) : rule.search ≠ [] := by
  rw [Replacement.ofSpec?] at h
  split at h
  · split at h
    · cases h
    · rename_i hsearch
      cases h
      simpa using hsearch
  · cases h

theorem Replacement.of_mapM {specs : List Text} {rules : List Replacement}
    (h : specs.mapM (fun spec =>
      match Replacement.ofSpec? spec with
      | some replacement => Except.ok replacement
      | none => Except.error (Replacement.invalidMessage spec)) = .ok rules) :
    (∀ rule ∈ rules, rule.search ≠ []) ∧
      ∀ spec ∈ specs, Replacement.ofSpec? spec ≠ none := by
  have hread := forall₂_of_mapM h
  clear h
  induction hread with
  | nil => simp
  | cons hspec _ ih =>
    simp only [List.forall_mem_cons]
    split at hspec
    · rename_i rule hrule
      cases hspec
      exact ⟨⟨search_of_ofSpec? hrule, ih.1⟩, by simp [hrule], ih.2⟩
    · cases hspec

/-- Settings that pass the check: all replacements could be read, and the root namespace is not
empty. -/
theorem Invocation.checkedSettings_eq_ok {invocation : Invocation} {settings : Settings}
    (h : invocation.checkedSettings = .ok settings) :
    settings.exclude = invocation.settings.exclude ∧
      (∀ rule ∈ settings.replacements, rule.search ≠ []) ∧
      (∀ spec ∈ invocation.replacements, Replacement.ofSpec? spec ≠ none) ∧
      invocation.settings.isUsable = true := by
  simp only [checkedSettings, bind, Except.bind] at h
  split at h
  · cases h
  · rename_i rules hrules
    obtain ⟨hsearch, hspecs⟩ := Replacement.of_mapM hrules
    split at h
    · rename_i husable
      cases h
      exact ⟨rfl, hsearch, hspecs, husable⟩
    · cases h

namespace Refusal

/-! ## What refusals leave -/

/-- A command line that migrates has ended for a reason. -/
def Ends (invocation : Invocation) (result : Ending × Workspace) : Refusal → Prop
  | replacement => ∃ spec ∈ invocation.replacements, Replacement.ofSpec? spec = none
  | rootNamespace => invocation.settings.isUsable = false
  | encoding => result.1.failure.bind Failure.refusal? = some encoding
  | manifest => result.1.failure.bind Failure.refusal? = some manifest
  | noFiles => result.1.code = 1 ∧ result.1.failure = none ∧
      result.2.notices.getLast? = some (.told "No PHP files found.")

/-- What is left of the disk of a project for a reason: the disk as it was if the command line
is refused; one with folders renamed, and nothing lost or added, if an encoding is unknown; one
with folders and then source files renamed if the manifest cannot be used; and one with folders
renamed and the file of the manifest written if there are no files. Nothing else has changed in
the project or around it. -/
def Leaves (excludes : Text → Bool) (before after : Disk) : Refusal → Prop
  | replacement => after = before
  | rootNamespace => after = before
  | encoding => after.around = before.around ∧ ∃ folders,
      Disk.FolderMoves excludes before folders after ∧
      before.Relabels after (FolderRename.carry folders)
  | manifest => after.around = before.around ∧ ∃ folders middle renames,
      Disk.FolderMoves excludes before folders middle ∧
      Disk.FileMoves middle renames after ∧ ∀ rename ∈ renames, rename.IsPlanned
  | noFiles => ∃ folders middle, middle.around = before.around ∧
      Disk.FolderMoves excludes before folders middle ∧
      Disk.WritesAt (fun place => middle.locate true Manifest.path = .ok place) middle after

variable {excludes : Text → Bool} {before after : Disk}

theorem Leaves.isTree {reason : Refusal} (h : reason.Leaves excludes before after)
    (tree : before.IsTree) : after.IsTree := by
  cases reason with
  | replacement =>
    rw [Leaves] at h
    rwa [h]
  | rootNamespace =>
    rw [Leaves] at h
    rwa [h]
  | encoding =>
    obtain ⟨-, folders, hmoves, -⟩ := h
    exact hmoves.isTree tree
  | manifest =>
    obtain ⟨-, folders, middle, renames, hmoves, hfiles, -⟩ := h
    exact hfiles.isTree (hmoves.isTree tree)
  | noFiles =>
    obtain ⟨folders, middle, -, -, hwrites⟩ := h
    exact hwrites.tree

/-- The project stays where it is. -/
theorem Leaves.home {reason : Refusal} (h : reason.Leaves excludes before after) :
    after.around.home = before.around.home := by
  cases reason with
  | replacement =>
    rw [Leaves] at h
    rw [h]
  | rootNamespace =>
    rw [Leaves] at h
    rw [h]
  | encoding => exact congrArg Surroundings.home h.1
  | manifest => exact congrArg Surroundings.home h.1
  | noFiles =>
    obtain ⟨folders, middle, haround, -, hwrites⟩ := h
    exact hwrites.home.trans (congrArg Surroundings.home haround)

end Refusal

/-- A migration that returns no files has renamed folders and written the manifest. -/
theorem Job.moves_of_returns_migrate_nil {settings : Settings} {before after : Workspace}
    (tree : before.disk.IsTree) (h : (migrate tools settings).Returns before [] after) :
    ∃ folders middle,
      Disk.FolderMoves (tools.excludedBy settings.exclude) before.disk folders middle ∧
      Disk.WritesAt (fun place => middle.locate true Manifest.path = .ok place) middle
        after.disk := by
  obtain ⟨run, hexcludes⟩ := exists_migrationRun h
  have hmoves := run.folderMoves tree
  rw [hexcludes] at hmoves
  have treeStart := run.isTree_start tree
  -- Nothing was loaded, so there was nothing to rename.
  have hpaths := run.map_path treeStart
  rw [List.map_nil, eq_comm, List.map_eq_nil_iff] at hpaths
  obtain ⟨found, -, hcarries, -⟩ := run.exists_carries treeStart
  have hdone := hcarries.done
  rw [hpaths, FileRename.plan, List.filterMap_nil, List.sublist_nil] at hdone
  have hready : run.ready.disk = run.start.disk := (hdone ▸ hcarries.moves).eq_of_nil
  refine ⟨run.folders, run.start.disk, hmoves, ?_⟩
  have hwrites := run.writesAt treeStart
  rw [hready] at hwrites
  exact hwrites.mono fun location hlocation => hlocation.resolve_right (by simp)

namespace Refusal

/-- With settings that pass the check, a refusal is that of a stage, or there are no files. -/
theorem Ends.of_checked {reason : Refusal} {invocation : Invocation} {settings : Settings}
    {result : Ending × Workspace} (h : reason.Ends invocation result)
    (hsettings : invocation.checkedSettings = .ok settings) :
    (reason = encoding ∨ reason = manifest) ∧
        (∃ failure, result.1.failure = some failure ∧ failure.refusal? = some reason) ∨
      reason = noFiles ∧ result.1.code = 1 ∧ result.1.failure = none ∧
        result.2.notices.getLast? = some (.told "No PHP files found.") := by
  obtain ⟨-, -, hspecs, husable⟩ := Invocation.checkedSettings_eq_ok hsettings
  cases reason with
  | replacement =>
    obtain ⟨spec, hspec, hnone⟩ := h
    exact absurd hnone (hspecs spec hspec)
  | rootNamespace => exact absurd (husable.symm.trans h) (by simp)
  | encoding => exact .inl ⟨.inl rfl, Option.bind_eq_some_iff.mp h⟩
  | manifest => exact .inl ⟨.inr rfl, Option.bind_eq_some_iff.mp h⟩
  | noFiles => exact .inr ⟨rfl, h⟩

/-- An error is not told as a lack of files. -/
theorem getLast?_telling_error (workspace : Workspace) (message : Text) :
    (workspace.telling ("Error: ".toList ++ message)).notices.getLast? ≠
      some (.told "No PHP files found.") := by
  intro h
  rw [Workspace.telling, List.getLast?_concat, Option.some.injEq, Notice.told.injEq] at h
  exact absurd (congrArg List.head? h) (by simp)

/-- What is left of the disk of a project when a command line that migrates it has ended for a
reason. -/
theorem leaves_of_ends {reason : Refusal} {invocation : Invocation} {before : Workspace}
    {result : Ending × Workspace} (tree : before.disk.IsTree)
    (hending : invocation.MigrateEnding tools before result) (h : reason.Ends invocation result) :
    result.1.code = 1 ∧
      reason.Leaves (tools.excludedBy invocation.settings.exclude) before.disk result.2.disk := by
  cases hending with
  | invalid hsettings =>
    cases reason with
    | replacement => exact ⟨rfl, rfl⟩
    | rootNamespace => exact ⟨rfl, rfl⟩
    | encoding => cases h
    | manifest => cases h
    | noFiles => exact absurd h.2.2 (getLast?_telling_error _ _)
  | failed hsettings hfails =>
    obtain ⟨hexclude, hsearch, -⟩ := Invocation.checkedSettings_eq_ok hsettings
    rcases h.of_checked hsettings with ⟨hreason, failure, heq, hfailure⟩ | ⟨-, -, hnone, -⟩
    · cases heq
      have hnot : reason ≠ rootNamespace := by
        rintro rfl
        simp at hreason
      obtain ⟨folders, middle, renames, hmoves, hfiles, hplans, hnil⟩ :=
        Job.moves_of_fails_migrate tree hsearch hfailure hnot hfails
      rw [hexclude] at hmoves
      refine ⟨rfl, ?_⟩
      rcases hreason with rfl | rfl
      · rw [hnil rfl] at hfiles
        rw [hfiles.eq_of_nil]
        exact ⟨hmoves.around_eq, folders, hmoves, hmoves.relabels tree⟩
      · have haround := hfiles.around_eq.trans hmoves.around_eq
        exact ⟨haround, folders, middle, renames, hmoves, hfiles, hplans⟩
    · cases hnone
  | notInstalled hsettings hfails =>
    rcases h.of_checked hsettings with ⟨-, failure, heq, -⟩ | ⟨-, -, -, hlast⟩
    · cases heq
    · exact absurd hlast (getLast?_telling_error _ _)
  | noFiles hsettings hreturns =>
    obtain ⟨hexclude, -⟩ := Invocation.checkedSettings_eq_ok hsettings
    rcases h.of_checked hsettings with ⟨-, failure, heq, -⟩ | ⟨rfl, -⟩
    · cases heq
    · obtain ⟨folders, middle, hmoves, hwrites⟩ := Job.moves_of_returns_migrate_nil tree hreturns
      rw [hexclude] at hmoves
      exact ⟨rfl, folders, middle, hmoves.around_eq, hmoves, hwrites⟩
  | done hsettings hreturns hfiles =>
    rcases h.of_checked hsettings with ⟨-, failure, heq, -⟩ | ⟨-, hcode, -⟩
    · cases heq
    · cases hcode

/-- What a command line that migrates leaves in the file system when it has ended for a reason.
It ends with code one. Nothing has changed if the command line itself was refused. Otherwise
folders of the project may have been renamed if an encoding is unknown, and folders and then
files if the manifest cannot be used, and nothing has changed outside of the project; and folders
of the project may have been renamed and the file to which the path of the manifest leads, which
links can take out of the project, may have been written if there are no files. -/
theorem leaves_runArguments {top : Workspace} {arguments : List Text} {invocation : Invocation}
    {site : Site} {reason : Refusal} (tree : top.disk.IsTree)
    (hparse : tools.command arguments = .ok invocation)
    (haction : invocation.action = .migrate) (hsite : Site.find? top invocation.root = some site)
    (h : reason.Ends invocation (invocation.run tools site.workspace)) :
    (runArguments tools top arguments).ending.code = 1 ∧
      site.workspace.disk.ShowsSame top.disk ∧
      (∃ disk, (runArguments tools top arguments).disk.ShowsSame disk ∧
        reason.Leaves (tools.excludedBy invocation.settings.exclude) site.workspace.disk disk) ∧
      (reason = replacement ∨ reason = rootNamespace →
        (runArguments tools top arguments).disk.ShowsSame top.disk) := by
  obtain ⟨rfl, hdirectory⟩ := Site.top_of_find? hsite
  have treeSite := Site.isTree_workspace tree hdirectory
  have hbefore := Site.showsSame_workspace tree hdirectory
  obtain ⟨hcode, hleaves⟩ := leaves_of_ends treeSite (Invocation.migrateEnding haction _) h
  have hending : (runArguments tools site.top arguments).ending =
      (invocation.run tools site.workspace).1 := by
    simp only [runArguments, hparse, hsite]
  have hdisk : (runArguments tools site.top arguments).disk =
      site.topDisk (invocation.run tools site.workspace).2.disk := by
    simp only [runArguments, hparse, hsite]
  have hafter := site.showsSame_topDisk (hleaves.isTree treeSite) hleaves.home
  rw [hending, hdisk]
  refine ⟨hcode, hbefore, ⟨_, hafter, hleaves⟩, fun hreason => hafter.trans ?_⟩
  have hsame : (invocation.run tools site.workspace).2.disk = site.workspace.disk := by
    rcases hreason with rfl | rfl
    · exact hleaves
    · exact hleaves
  rwa [hsame]

/-- A project with a folder that is to be renamed, and other entries. -/
def legacyProject (entries : List (Location × Entry)) : Workspace where
  root := ⟨[], []⟩
  disk.entries := (["old_code".toList], .directory) :: entries

/-- A file in the folder. -/
def legacyFile : Location × Entry := (["old_code".toList, "a.php".toList], .file [60])

/-- The project as the site of a command. -/
def legacySite (entries : List (Location × Entry)) : Site := ⟨legacyProject entries, []⟩

/-- The command line that migrates the current directory in an encoding. -/
def legacyArguments (encoding : Text) : List Text :=
  ["migrate", ".", "-n", "App", "--encoding", encoding]

/-- What the command line asks for. -/
def legacyInvocation (encoding : Text) : Invocation where
  action := .migrate
  root := "."
  settings := { rootNamespace := "App", encoding }

theorem parse_legacyArguments (encoding : Text) :
    Tools.standard.command (legacyArguments encoding) = .ok (legacyInvocation encoding) := rfl

theorem find?_legacyProject (entries : List (Location × Entry)) :
    Site.find? (legacyProject entries) "." = some (legacySite entries) := rfl

theorem ends_legacyFile : encoding.Ends (legacyInvocation "nope")
    ((legacyInvocation "nope").run .standard (legacySite [legacyFile]).workspace) := by
  rw [Ends]
  decide +kernel

theorem leaves_runArguments_legacy :
    (legacyProject [legacyFile]).disk.IsTree ∧
    (runArguments .standard (legacyProject [legacyFile]) (legacyArguments "nope")).ending.code = 1 ∧
      (legacySite [legacyFile]).workspace.disk.ShowsSame (legacyProject [legacyFile]).disk ∧
      (∃ disk, (runArguments .standard (legacyProject [legacyFile])
          (legacyArguments "nope")).disk.ShowsSame disk ∧
        encoding.Leaves (Tools.standard.excludedBy []) (legacySite [legacyFile]).workspace.disk disk) ∧
      (encoding = replacement ∨ encoding = rootNamespace →
        (runArguments .standard (legacyProject [legacyFile])
          (legacyArguments "nope")).disk.ShowsSame (legacyProject [legacyFile]).disk) :=
  ⟨by decide, leaves_runArguments (by decide) (parse_legacyArguments "nope") rfl
    (find?_legacyProject [legacyFile]) ends_legacyFile⟩

/-- Whether everything is as it was when a command line that migrates has ended for a reason. -/
def LeavesAll (reason : Refusal) : Prop :=
  ∀ (top : Workspace) (arguments : List Text) (invocation : Invocation) (site : Site),
    top.disk.IsTree → Tools.standard.command arguments = .ok invocation →
    invocation.action = .migrate → Site.find? top invocation.root = some site →
    reason.Ends invocation (invocation.run .standard site.workspace) →
      ∀ location,
        (runArguments .standard top arguments).disk.get? location = top.disk.get? location

theorem not_leavesAll_of_moved {reason : Refusal} {entries : List (Location × Entry)}
    {encoding : Text} (tree : (legacyProject entries).disk.IsTree)
    (hends : reason.Ends (legacyInvocation encoding)
      ((legacyInvocation encoding).run .standard (legacySite entries).workspace))
    (hmoved : (runArguments .standard (legacyProject entries) (legacyArguments encoding)).disk.get?
      ["old_code".toList] = none) : ¬ reason.LeavesAll := by
  intro h
  have hsame := h _ _ _ _ tree (parse_legacyArguments encoding) rfl (find?_legacyProject entries)
    hends ["old_code".toList]
  rw [hmoved] at hsame
  cases hsame

theorem told_of_line {notice? : Option Notice} {line : Text} (hne : line ≠ [])
    (h : (match notice? with
      | some (.told told) => told
      | _ => []) = line) : notice? = some (.told line) := by
  split at h
  · rw [h]
  · exact absurd h.symm hne

/-- Refusals by a stage, or after all stages, do not leave everything as it was: a folder has
got another name. -/
theorem not_leavesAll : ¬ encoding.LeavesAll ∧ ¬ manifest.LeavesAll ∧ ¬ noFiles.LeavesAll := by
  refine ⟨?_, ?_, ?_⟩
  · exact not_leavesAll_of_moved (by decide) ends_legacyFile (by decide +kernel)
  · -- The manifest is cut off after an opening bracket.
    refine @not_leavesAll_of_moved _ [(["composer.json".toList], .file [91])] "utf-8"
      (by decide) ?_ (by decide +kernel)
    rw [Ends]
    decide +kernel
  · refine @not_leavesAll_of_moved _ [] "utf-8" (by decide) ?_ (by decide +kernel)
    refine ⟨by decide +kernel, Option.isNone_iff_eq_none.mp (by decide +kernel), ?_⟩
    exact told_of_line (by decide) (by decide +kernel)

end Refusal

end Namespacer
