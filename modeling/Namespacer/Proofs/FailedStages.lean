import Namespacer.Proofs.FolderMoves
import Namespacer.Proofs.RenamedForms
import Namespacer.Proofs.ParallelResolution
import Namespacer.Proofs.WrittenFiles

/-!
# Stages that fail

A job that fails leaves the workspace as the stage left it that has failed. `Job.Fails` is the
counterpart of `Job.Returns` for such runs, and `Job.RefusesFor` says for which reasons a stage
can refuse to go on, so that a failure tells how far a migration has come.

* `Job.RefusesFor.pass`: a stage that cannot refuse for the reason of a failure was passed.
* `SourceFile.IsVoid`: what is loaded in spite of an unknown encoding has no contents, and no
  stage gives it any, so that it is never written.
* `Job.moves_of_fails_migrate`: when an encoding is unknown, folders were renamed; when the
  manifest cannot be used, folders and then files were.
-/

namespace Namespacer

variable {tools : Tools}

/-- Why a migration is refused. -/
inductive Refusal where
  /-- A replacement cannot be read. -/
  | replacement
  /-- The root namespace is empty. -/
  | rootNamespace
  /-- There is no encoding with the given name. -/
  | encoding
  /-- The manifest is not written in JSON, or it or one of its sections is no object. -/
  | manifest
  /-- There are no files to work on. -/
  | noFiles
deriving DecidableEq, Repr

/-- The refusal that a failure stands for, if it does. -/
def Failure.refusal? : Failure → Option Refusal
  | emptyNamespace => some .rootNamespace
  | unknownEncoding _ => some .encoding
  | manifestText .. => some .manifest
  | manifestShape => some .manifest
  | manifestSection => some .manifest
  | _ => none

namespace Job

variable {α β : Type}

/-! ## Failing -/

/-- A run of the job from a workspace fails and leaves another workspace. -/
def Fails (job : Job α) (before : Workspace) (failure : Failure) (after : Workspace) : Prop :=
  job.outcome before = (.error failure, after)

@[simp] theorem not_fails_pure {a : α} {before after : Workspace} {failure : Failure} :
    ¬ (pure a : Job α).Fails before failure after := by
  rintro ⟨⟩

@[simp] theorem fails_throw {failure other : Failure} {before after : Workspace} :
    (throw failure : Job α).Fails before other after ↔ other = failure ∧ after = before := by
  constructor
  · rintro ⟨⟩
    exact ⟨rfl, rfl⟩
  · rintro ⟨rfl, rfl⟩
    rfl

theorem not_fails_disk {before after : Workspace} {failure : Failure} :
    ¬ disk.Fails before failure after := by
  rintro ⟨⟩

theorem not_fails_log {event : LogEvent} {before after : Workspace} {failure : Failure} :
    ¬ (log event).Fails before failure after := by
  rintro ⟨⟩

/-- A run of a job returns or fails. -/
theorem returns_or_fails (job : Job α) (before : Workspace) :
    (∃ a after, job.Returns before a after) ∨ ∃ failure after, job.Fails before failure after := by
  unfold Returns Fails
  rcases job.outcome before with ⟨failure | a, after⟩
  · exact .inr ⟨failure, after, rfl⟩
  · exact .inl ⟨a, after, rfl⟩

theorem fails_bind {job : Job α} {next : α → Job β} {failure : Failure}
    {before after : Workspace} :
    (job >>= next).Fails before failure after ↔ job.Fails before failure after ∨
      ∃ a middle, job.Returns before a middle ∧ (next a).Fails middle failure after := by
  unfold Fails Returns
  rw [outcome_bind]
  rcases job.outcome before with ⟨other | a, middle⟩
  · simp
  · simp only [Prod.mk.injEq, reduceCtorEq, false_and, false_or, Except.ok.injEq]
    constructor
    · intro h
      exact ⟨a, middle, ⟨rfl, rfl⟩, h⟩
    · rintro ⟨_, _, ⟨rfl, rfl⟩, h⟩
      exact h

theorem Fails.disk_eq {job : Job α} (hjob : job.KeepsDisk) {failure : Failure}
    {before after : Workspace} (h : job.Fails before failure after) :
    after.disk = before.disk := by
  have hdisk := hjob before
  rwa [h] at hdisk

/-! ## Refusing -/

/-- The job refuses to go on for some reasons only; other failures stand for no refusal. -/
def RefusesFor (job : Job α) (reasons : List Refusal) : Prop :=
  ∀ before failure after, job.Fails before failure after →
    ∀ reason, failure.refusal? = some reason → reason ∈ reasons

/-- A stage was passed if it cannot refuse for the reason of a failure. -/
theorem RefusesFor.pass {job : Job α} {next : α → Job β} {reasons : List Refusal}
    {failure : Failure} {reason : Refusal} {before after : Workspace}
    (hjob : job.RefusesFor reasons) (hfailure : failure.refusal? = some reason)
    (hreason : reason ∉ reasons) (h : (job >>= next).Fails before failure after) :
    ∃ a middle, job.Returns before a middle ∧ (next a).Fails middle failure after := by
  rcases fails_bind.mp h with h | h
  · exact absurd (hjob _ _ _ h _ hfailure) hreason
  · exact h

variable {reasons : List Refusal}

theorem refusesFor_pure (a : α) : (pure a : Job α).RefusesFor reasons :=
  fun _ _ _ h => absurd h not_fails_pure

theorem refusesFor_throw {failure : Failure}
    (h : ∀ reason, failure.refusal? = some reason → reason ∈ reasons) :
    (throw failure : Job α).RefusesFor reasons := by
  intro before other after hfails
  rwa [(fails_throw.mp hfails).1]

theorem refusesFor_throw_of_eq_none {failure : Failure} (h : failure.refusal? = none) :
    (throw failure : Job α).RefusesFor reasons := by
  refine refusesFor_throw fun reason hreason => ?_
  rw [h] at hreason
  cases hreason

theorem RefusesFor.bind {job : Job α} {next : α → Job β} (hjob : job.RefusesFor reasons)
    (hnext : ∀ a, (next a).RefusesFor reasons) : (job >>= next).RefusesFor reasons := by
  intro before failure after h
  rcases fails_bind.mp h with h | ⟨a, middle, -, h⟩
  · exact hjob before failure after h
  · exact hnext a middle failure after h

theorem RefusesFor.ite {condition : Prop} [Decidable condition] {job other : Job α}
    (hjob : job.RefusesFor reasons) (hother : other.RefusesFor reasons) :
    (if condition then job else other).RefusesFor reasons := by
  split
  · exact hjob
  · exact hother

theorem refusesFor_get : (get : Job Workspace).RefusesFor reasons := by
  rintro before failure after ⟨⟩

theorem refusesFor_modify (f : Workspace → Workspace) :
    (modify f : Job Unit).RefusesFor reasons := by
  rintro before failure after ⟨⟩

theorem refusesFor_liftM (x : StateM Workspace α) : (liftM x : Job α).RefusesFor reasons := by
  rintro before failure after ⟨⟩

theorem refusesFor_disk : disk.RefusesFor reasons :=
  refusesFor_get.bind fun _ => refusesFor_pure _

theorem refusesFor_log (event : LogEvent) : (log event).RefusesFor reasons := refusesFor_modify _

theorem refusesFor_logAll (events : List LogEvent) : (logAll events).RefusesFor reasons := by
  induction events with
  | nil => exact refusesFor_pure ()
  | cons event events ih => exact (refusesFor_log event).bind fun _ => ih

theorem refusesFor_failAt (fault : DiskFault) (path : Path) :
    (failAt fault path : Job α).RefusesFor reasons :=
  refusesFor_get.bind fun _ => refusesFor_throw_of_eq_none rfl

theorem refusesFor_readBytes (path : Path) : (readBytes path).RefusesFor reasons := by
  refine refusesFor_disk.bind fun disk => ?_
  split
  · exact refusesFor_pure _
  · exact refusesFor_failAt _ _

theorem refusesFor_writeBytes (path : Path) (bytes : Bytes) :
    (writeBytes path bytes).RefusesFor reasons := by
  refine refusesFor_disk.bind fun disk => ?_
  split
  · exact refusesFor_modify _
  · exact refusesFor_failAt _ _

theorem refusesFor_rename (oldPath newPath : Path) :
    (rename oldPath newPath).RefusesFor reasons := by
  refine refusesFor_disk.bind fun disk => ?_
  split
  · exact refusesFor_modify _
  · exact refusesFor_get.bind fun _ => refusesFor_throw_of_eq_none rfl

theorem refusesFor_readUtf8 (path : Path) : (readUtf8 path).RefusesFor reasons := by
  refine (refusesFor_readBytes path).bind fun bytes => ?_
  split
  · exact refusesFor_pure _
  · exact refusesFor_throw_of_eq_none rfl

theorem refusesFor_ignoreRules (rules : Except IgnoreFault α) :
    (ignoreRules rules).RefusesFor reasons := by
  unfold ignoreRules
  split
  · exact refusesFor_pure _
  · exact refusesFor_throw_of_eq_none rfl

theorem refusesFor_exclusion (patterns : List Text) :
    (exclusion tools patterns).RefusesFor reasons :=
  refusesFor_ignoreRules _

/-! ### Renaming -/

theorem refusesFor_renameNamed (excludes : Text → Bool) (directory : Location)
    (names : List Text) : (renameNamed excludes directory names).RefusesFor reasons := by
  induction names with
  | nil => exact refusesFor_pure _
  | cons name names ih =>
    refine .ite ih (RefusesFor.bind ?_ fun _ => ih.bind fun _ => refusesFor_pure _)
    refine .ite (refusesFor_pure _) (refusesFor_disk.bind fun disk => .ite ?_ ?_)
    · exact (refusesFor_log _).bind fun _ => refusesFor_pure _
    · exact (refusesFor_rename _ _).bind fun _ => refusesFor_pure _

theorem refusesFor_renameBelow (excludes : Text → Bool) (count : Nat) (pending : List Location) :
    (renameBelow excludes count pending).RefusesFor reasons := by
  induction count generalizing pending with
  | zero => exact refusesFor_pure _
  | succ count ih =>
    cases pending with
    | nil => exact refusesFor_pure _
    | cons directory pending =>
      refine (refusesFor_disk.bind fun _ => refusesFor_pure _).bind fun names => ?_
      exact (refusesFor_renameNamed excludes directory names).bind fun _ =>
        (ih _).bind fun _ => refusesFor_pure _

theorem refusesFor_renameFolders (excludes : Text → Bool) :
    (renameFolders excludes).RefusesFor reasons :=
  refusesFor_disk.bind fun _ => refusesFor_renameBelow _ _ _

/-! ### The manifest -/

theorem refusal?_of_updated_eq_error {manifest : Json} {root constraint : Codes}
    {paths : List (List Codes)} {failure : Failure}
    (h : Manifest.updated manifest root constraint paths = .error failure) :
    ∀ reason, failure.refusal? = some reason → reason ∈ [Refusal.manifest] := by
  have hset {sectionKey key : List Nat} {value : Json} {members : List (List Nat × Json)}
      {fault : Failure} (hset : Manifest.setIn sectionKey key value members = .error fault) :
      ∀ reason, fault.refusal? = some reason → reason ∈ [Refusal.manifest] := by
    rw [Manifest.setIn] at hset
    split at hset
    · cases hset
    · cases hset
      rintro _ ⟨⟩
      exact List.mem_cons_self
  unfold Manifest.updated at h
  split at h
  · split at h
    · cases h
      rintro _ ⟨⟩
    · simp only [bind, Except.bind] at h
      split at h
      · rename_i fault hfault
        cases h
        exact hset hfault
      · split at h
        · rename_i fault hfault
          cases h
          exact hset hfault
        · cases h
  · cases h
    rintro _ ⟨⟩
    exact List.mem_cons_self

theorem refusesFor_readManifest : readManifest.RefusesFor [.manifest] := by
  refine refusesFor_disk.bind fun disk => .ite ?_ (refusesFor_pure _)
  refine (refusesFor_readUtf8 _).bind fun text => ?_
  split
  · exact refusesFor_pure _
  · exact refusesFor_throw (by rintro _ ⟨⟩; exact List.mem_cons_self)

theorem refusesFor_writeManifest (manifest : Json) :
    (writeManifest manifest).RefusesFor reasons := by
  refine (refusesFor_writeBytes _ _).bind fun _ => ?_
  split
  · exact refusesFor_writeBytes _ _
  · exact refusesFor_throw_of_eq_none rfl

theorem refusesFor_updateManifest (paths : List (List Codes)) (root constraint : Codes) :
    (updateManifest paths root constraint).RefusesFor [.manifest] := by
  refine refusesFor_readManifest.bind fun manifest => ?_
  split
  · rename_i failure hfailure
    exact refusesFor_throw (refusal?_of_updated_eq_error hfailure)
  · exact (refusesFor_writeManifest _).bind fun _ => (refusesFor_log _).bind fun _ =>
      refusesFor_pure _

/-- A manifest that cannot be used is not written. -/
theorem disk_of_fails_updateManifest {paths : List (List Codes)} {root constraint : Codes}
    {failure : Failure} {before after : Workspace} (hfailure : failure.refusal? = some .manifest)
    (h : (updateManifest paths root constraint).Fails before failure after) :
    after.disk = before.disk := by
  rw [updateManifest, fails_bind] at h
  rcases h with h | ⟨manifest, middle, hmanifest, h⟩
  · exact h.disk_eq keepsDisk_readManifest
  have hdisk := hmanifest.disk_eq keepsDisk_readManifest
  split at h
  · rw [(fails_throw.mp h).2, hdisk]
  · obtain ⟨_, w₁, -, h⟩ := (refusesFor_writeManifest _).pass hfailure List.not_mem_nil h
    obtain ⟨_, w₂, -, h⟩ := (refusesFor_log _).pass hfailure List.not_mem_nil h
    exact absurd h not_fails_pure

/-! ### Imports and writing -/

theorem refusesFor_buildIndex (files : List SourceFile) : (buildIndex files).RefusesFor reasons :=
  (refusesFor_logAll _).bind fun _ => refusesFor_pure _

theorem refusesFor_ensureFresh (index : SymbolIndex) (files : List SourceFile) :
    (ensureFresh index files).RefusesFor reasons :=
  .ite (refusesFor_throw_of_eq_none rfl) (refusesFor_pure _)

theorem refusesFor_resolve (fast : Bool) (files : List SourceFile) (index : SymbolIndex) :
    (resolve tools fast files index).RefusesFor reasons := by
  have heach (files : List SourceFile) : (resolveEach tools index files).RefusesFor reasons := by
    induction files with
    | nil => exact refusesFor_pure _
    | cons file files ih =>
      refine RefusesFor.bind ?_ fun _ => ih.bind fun _ => refusesFor_pure _
      exact (refusesFor_logAll _).bind fun _ => refusesFor_pure _
  refine .ite ?_ ((refusesFor_ensureFresh _ _).bind fun _ => heach _)
  refine (refusesFor_ensureFresh _ _).bind fun _ => .ite (refusesFor_pure _) ?_
  exact .ite (refusesFor_throw_of_eq_none rfl) (refusesFor_pure _)

theorem refusesFor_installPackages : installPackages.RefusesFor reasons := by
  refine (refusesFor_modify _).bind fun _ => refusesFor_get.bind fun workspace => ?_
  split
  · exact refusesFor_throw_of_eq_none rfl
  · exact refusesFor_throw_of_eq_none rfl
  · exact refusesFor_pure _
  · exact refusesFor_throw_of_eq_none rfl

theorem refusesFor_codecNamed {name : Text}
    (h : tools.codec? name = none → .encoding ∈ reasons) :
    (codecNamed tools name).RefusesFor reasons := by
  rw [codecNamed]
  split
  · exact refusesFor_pure _
  · rename_i hnone
    refine refusesFor_throw ?_
    rintro _ ⟨⟩
    exact h hnone

/-- Only files that are rendered need an encoding. -/
theorem refusesFor_persist {files : List SourceFile} {encoding : Text}
    (h : tools.codec? encoding = none → ∀ file ∈ files, file.render = none) :
    (persist tools encoding files).RefusesFor reasons := by
  induction files with
  | nil => exact refusesFor_pure _
  | cons file files ih =>
    simp only [List.forall_mem_cons] at h
    refine RefusesFor.bind ?_ fun _ => (ih fun hnone => (h hnone).2).bind fun _ =>
      refusesFor_pure _
    rw [persistFile_eq]
    refine RefusesFor.bind (.ite (refusesFor_log _) (refusesFor_pure _)) fun _ => ?_
    cases hwritten : file.written? with
    | none => exact refusesFor_pure _
    | some text =>
      refine RefusesFor.bind (RefusesFor.bind ?_ fun bytes => refusesFor_writeBytes _ _) fun _ =>
        refusesFor_pure _
      refine RefusesFor.bind (refusesFor_codecNamed fun hnone => ?_) fun found => ?_
      · rw [SourceFile.written?, (h hnone).1] at hwritten
        cases hwritten
      split
      · exact refusesFor_pure _
      · exact refusesFor_throw_of_eq_none rfl

end Job

/-! ## Files without contents -/

/-- A file of which there is nothing to write. -/
structure SourceFile.IsVoid (file : SourceFile) : Prop where
  contents : file.contents = []
  imports : file.imports = []

/-- A file without contents and imports is not rendered. -/
theorem SourceFile.IsVoid.render_eq_none {file : SourceFile} (h : file.IsVoid) :
    file.render = none := by
  rw [render]
  split
  · rw [renderTemplate, h.imports]
    rfl
  · rw [h.contents]
    rfl

/-- No rename rule changes the empty text. -/
theorem RenameRule.apply_nil {oldName newName : Text} {rule : RenameRule}
    (hrule : rule ∈ renameRules oldName newName) {text : Text} (h : rule.apply [] = .ok text) :
    text = [] := by
  have hnone : rule.pattern.end? ⟨none, []⟩ = none := by
    simp only [renameRules, List.mem_cons, List.not_mem_nil, or_false] at hrule
    rcases hrule with rfl | rfl | rfl | rfl
    · rfl
    · rfl
    · rfl
    · rw [Pattern.end?_eq_none_iff]
      rintro covered after hnil hcovers
      obtain ⟨-, gap, trail, -, -, rfl⟩ := (covers_beforeScope _ _ _).mp hcovers
      simp at hnil
  rw [RenameRule.apply] at h
  cases hparse : Template.parse (if rule.keepsKeyword then 1 else 0) rule.template with
  | error fault => simp [hparse, bind, Except.bind] at h
  | ok pieces =>
    rw [hparse] at h
    cases h
    rw [Pattern.replaceAll, Pattern.replaceFrom, hnone]

theorem RenameRule.applyAll_nil {renames : List FileRename} {text : Text}
    (h : applyAll (renames.flatMap FileRename.rules) [] = .ok text) : text = [] := by
  have hrules : ∀ rule ∈ renames.flatMap FileRename.rules, ∀ text, rule.apply [] = .ok text →
      text = [] := by
    intro rule hrule text
    obtain ⟨rename, -, hrule⟩ := List.mem_flatMap.mp hrule
    exact apply_nil hrule
  generalize renames.flatMap FileRename.rules = rules at h hrules
  induction rules with
  | nil =>
    cases h
    rfl
  | cons rule rules ih =>
    rw [List.forall_mem_cons] at hrules
    rw [applyAll] at h
    cases hfirst : rule.apply [] with
    | error fault => simp [hfirst, bind, Except.bind] at h
    | ok first =>
      rw [hfirst, hrules.1 first hfirst] at h
      exact ih h hrules.2

/-- Renames are carried into files without contents without any effect. -/
theorem isVoid_carryIntoContents {renames : List FileRename} {files edited : List SourceFile}
    (h : carryIntoContents renames files = .ok edited)
    (hfiles : ∀ file ∈ files, file.IsVoid) : ∀ file ∈ edited, file.IsVoid := by
  have hedits := forall₂_carryIntoContents h
  clear h
  induction hedits with
  | nil => simp
  | cons hedit _ ih =>
    rw [List.forall_mem_cons] at hfiles
    refine List.forall_mem_cons.mpr ⟨?_, ih hfiles.2⟩
    obtain ⟨text, htext, rfl⟩ := hedit
    rw [hfiles.1.contents] at htext
    exact ⟨RenameRule.applyAll_nil htext, hfiles.1.imports⟩

theorem Replacement.applyAll_nil {rules : List Replacement}
    (h : ∀ rule ∈ rules, rule.search ≠ []) : applyAll rules [] = [] := by
  induction rules with
  | nil => rfl
  | cons rule rules ih =>
    rw [List.forall_mem_cons] at h
    have hfirst : rule.apply [] = [] := by
      rw [apply, Text.replace, if_neg (by simpa using h.1), Text.replaceFrom]
    rw [applyAll, List.foldl_cons, hfirst]
    exact ih h.2

theorem isVoid_applyReplacements {rules : List Replacement} {files : List SourceFile}
    (hrules : ∀ rule ∈ rules, rule.search ≠ []) (hfiles : ∀ file ∈ files, file.IsVoid) :
    ∀ file ∈ applyReplacements rules files, file.IsVoid := by
  intro record hrecord
  obtain ⟨file, hfile, rfl⟩ := List.mem_map.mp hrecord
  refine ⟨?_, (hfiles file hfile).imports⟩
  simp only [(hfiles file hfile).contents]
  exact Replacement.applyAll_nil hrules

theorem isVoid_assignNamespaces {files : List SourceFile} (hfiles : ∀ file ∈ files, file.IsVoid)
    (root : Text) : ∀ file ∈ assignNamespaces files root, file.IsVoid := by
  intro record hrecord
  obtain ⟨file, hfile, rfl⟩ := List.mem_map.mp hrecord
  exact ⟨(hfiles file hfile).contents, (hfiles file hfile).imports⟩

theorem analyzeFile_nil {file : SourceFile} (h : file.contents = []) (index : SymbolIndex) :
    analyzeFile tools file index = [] := by
  rw [analyzeFile, h]
  rfl

theorem Registry.mem_files_updateLast {path : Path} {change : SourceFile → SourceFile}
    {registry : Registry} {file : SourceFile} (h : file ∈ (registry.updateLast path change).files) :
    file ∈ registry.files ∨ ∃ old ∈ registry.files, file = change old := by
  induction registry with
  | nil => cases h
  | cons entry registry ih =>
    obtain ⟨other, first⟩ := entry
    simp only [Registry.files, List.map_cons, List.mem_cons] at ih ⊢
    rw [updateLast] at h
    split at h
    · simp only [Registry.files, List.map_cons, List.mem_cons] at h
      rcases h with rfl | h
      · exact .inr ⟨first, .inl rfl, rfl⟩
      · exact .inl (.inr h)
    · simp only [Registry.files, List.map_cons, List.mem_cons] at h
      rcases h with rfl | h
      · exact .inl (.inl rfl)
      · rcases ih h with h | ⟨old, hold, heq⟩
        · exact .inl (.inr h)
        · exact .inr ⟨old, .inr hold, heq⟩

theorem isVoid_assignImports {found : List (Path × List Text)} {files : List SourceFile}
    (hfound : ∀ entry ∈ found, entry.2 = []) (hfiles : ∀ file ∈ files, file.IsVoid) :
    ∀ file ∈ assignImports found files, file.IsVoid := by
  induction found generalizing files with
  | nil => exact hfiles
  | cons entry found ih =>
    obtain ⟨path, imports⟩ := entry
    rw [List.forall_mem_cons] at hfound
    refine ih hfound.2 fun file hfile => ?_
    have hsame : (Registry.ofFiles files).files = files := by
      simp [Registry.files, Registry.ofFiles, Function.comp_def]
    rcases Registry.mem_files_updateLast hfile with hfile | ⟨old, hold, rfl⟩
    · exact hfiles file (hsame ▸ hfile)
    · exact ⟨(hfiles old (hsame ▸ hold)).contents, hfound.1⟩

namespace Job

/-- Nothing is imported into files without contents. -/
theorem isVoid_of_returns_resolve {fast : Bool} {files resolved : List SourceFile}
    {index : SymbolIndex} {before after : Workspace}
    (h : (resolve tools fast files index).Returns before resolved after)
    (hfiles : ∀ file ∈ files, file.IsVoid) : ∀ file ∈ resolved, file.IsVoid := by
  rw [resolve] at h
  split at h
  · rw [resolveInParallel, resolveAsCompleted, returns_bind] at h
    obtain ⟨_, middle, -, h⟩ := h
    split at h
    · rwa [(returns_pure.mp h).1]
    split at h
    · exact absurd h not_returns_throw
    · rw [(returns_pure.mp h).1]
      refine isVoid_assignImports ?_ hfiles
      rintro entry hentry
      obtain ⟨file, hfile, rfl⟩ := List.mem_map.mp hentry
      exact analyzeFile_nil (hfiles file hfile).contents index
  · rw [resolveInOrder, returns_bind] at h
    obtain ⟨_, middle, -, h⟩ := h
    obtain ⟨last, heach⟩ := returns_resolveEach index files middle
    have hsame := h.symm.trans heach
    rw [Prod.mk.injEq, Except.ok.injEq] at hsame
    rw [hsame.1]
    intro record hrecord
    obtain ⟨file, hfile, rfl⟩ := List.mem_map.mp hrecord
    exact ⟨(hfiles file hfile).contents, analyzeFile_nil (hfiles file hfile).contents index⟩

/-- What is read in an encoding that is unknown is empty. -/
theorem isVoid_of_returns_loadProject {settings : Settings} {files : List SourceFile}
    {before after : Workspace} (tree : before.disk.IsTree)
    (hencoding : tools.codec? settings.encoding = none)
    (h : (loadProject tools settings).Returns before files after) :
    ∀ file ∈ files, file.IsVoid := by
  intro file hfile
  obtain ⟨-, -, -, text, start, stop, -, hread, heq⟩ := (returns_loadProject tree h).2 file hfile
  rw [heq]
  refine ⟨?_, rfl⟩
  rw [readText, returns_bind] at hread
  obtain ⟨bytes, middle, -, hread⟩ := hread
  rw [decode] at hread
  split at hread
  · exact (returns_pure.mp hread).1
  · rw [returns_bind] at hread
    obtain ⟨encoding, last, hnamed, -⟩ := hread
    rw [returns_codecNamed, hencoding] at hnamed
    cases hnamed.1

/-- If an encoding is unknown and files could be loaded nevertheless, then nothing is written
for them. -/
theorem isVoid_of_returns_outcome {settings : Settings} {loaded renamed : List SourceFile}
    {run : RenameRun} {renames : List FileRename} {before stop carried settled : Workspace}
    (tree : before.disk.IsTree) (hencoding : tools.codec? settings.encoding = none)
    (hload : (loadProject tools settings).Returns before loaded stop)
    (hrun : (renameFiles loaded).run stop = (run, carried))
    (houtcome : run.outcome.Returns carried (renamed, renames) settled) :
    ∀ file ∈ renamed, file.IsVoid := by
  obtain ⟨found, -, hcarries, hedited, -⟩ := returns_outcome_renameFiles tree hload hrun houtcome
  refine isVoid_carryIntoContents hedited fun record hrecord => ?_
  rw [hcarries.files, Registry.ofFiles, List.map_map] at hrecord
  obtain ⟨file, hfile, rfl⟩ := List.mem_map.mp hrecord
  have hvoid := isVoid_of_returns_loadProject tree hencoding hload file hfile
  rw [Function.comp_apply, SourceFile.renamed]
  split
  · exact ⟨hvoid.contents, hvoid.imports⟩
  · exact hvoid

/-- Renaming files that were loaded does not fail. -/
theorem refusesFor_outcome {settings : Settings} {loaded : List SourceFile} {run : RenameRun}
    {before stop carried : Workspace} (tree : before.disk.IsTree)
    (hload : (loadProject tools settings).Returns before loaded stop)
    (hrun : (renameFiles loaded).run stop = (run, carried)) : run.outcome.RefusesFor reasons := by
  obtain ⟨found, last, edited, hfound, hcarries, -⟩ := exists_renameFiles tree hload
  have hsame := hrun.symm.trans hfound
  rw [Prod.mk.injEq] at hsame
  rw [hsame.1, RenameRun.outcome, hcarries.complete]
  exact refusesFor_pure _

end Job

/-! ## Migrations -/

/-- The rename of a source file to its PascalCase name. -/
structure FileRename.IsPlanned (rename : FileRename) : Prop where
  ofPath?_eq : FileRename.ofPath? rename.oldPath = some rename
  isSource : (languageFor? (Text.lower rename.oldPath.suffix)).isSome = true

namespace Job

theorem isPlanned_of_mem_plan {settings : Settings} {files : List SourceFile}
    {before after : Workspace} (tree : before.disk.IsTree)
    (h : (loadProject tools settings).Returns before files after) {rename : FileRename}
    (hrename : rename ∈ FileRename.plan files) : rename.IsPlanned := by
  obtain ⟨file, hfile, hofPath⟩ := FileRename.mem_plan.mp hrename
  have hold := FileRename.oldPath_of_ofPath? hofPath
  obtain ⟨-, -, hsuffix, -⟩ := (returns_loadProject tree h).2 file hfile
  exact ⟨by rw [hold, hofPath], by rw [hold, hsuffix]⟩

/-- How far a migration has come that is refused, for another reason than its root namespace:
folders were renamed, and files after them, but not if an encoding is unknown. -/
theorem moves_of_fails_migrate {settings : Settings} {failure : Failure} {reason : Refusal}
    {before after : Workspace} (tree : before.disk.IsTree)
    (hsearch : ∀ rule ∈ settings.replacements, rule.search ≠ [])
    (hfailure : failure.refusal? = some reason) (hreason : reason ≠ .rootNamespace)
    (h : (migrate tools settings).Fails before failure after) :
    ∃ folders middle renames,
      Disk.FolderMoves (tools.excludedBy settings.exclude) before.disk folders middle ∧
      Disk.FileMoves middle renames after.disk ∧ (∀ rename ∈ renames, rename.IsPlanned) ∧
      (reason = .encoding → renames = []) := by
  have hnone : reason ∉ ([] : List Refusal) := List.not_mem_nil
  have husable : (ensureUsable settings).RefusesFor [.rootNamespace] :=
    .ite (refusesFor_pure _) (refusesFor_throw (by rintro _ ⟨⟩; exact List.mem_cons_self))
  rw [migrate] at h
  obtain ⟨_, w₁, husableRun, h⟩ := husable.pass hfailure (by simpa using hreason) h
  obtain ⟨excludes, w₂, hexcludes, h⟩ := (refusesFor_exclusion _).pass hfailure hnone h
  obtain ⟨folders, w₃, hfolders, h⟩ := (refusesFor_renameFolders _).pass hfailure hnone h
  obtain ⟨_, w₄, hlog, h⟩ := (refusesFor_log _).pass hfailure hnone h
  obtain ⟨hexcluded, hw₂⟩ := returns_exclusion hexcludes
  have hopened : w₂.disk = before.disk := by
    rw [hw₂, husableRun.disk_eq ((keepsDisk_pure _).ite (keepsDisk_throw _))]
  have hstart : w₄.disk = w₃.disk := hlog.disk_eq (keepsDisk_log _)
  obtain ⟨hmoves, -⟩ := returns_renameFolders (hopened ▸ tree) hfolders
  rw [hopened, ← hstart, hexcluded] at hmoves
  have treeStart := hmoves.isTree tree
  rcases fails_bind.mp h with h | ⟨loaded, w₅, hload, h⟩
  · refine ⟨folders, _, [], hmoves, ?_, by simp, fun _ => rfl⟩
    rw [h.disk_eq (keepsDisk_loadProject _)]
    exact .nil _
  obtain ⟨run, w₆, hlift, h⟩ := (refusesFor_liftM _).pass hfailure hnone h
  have hrun := returns_liftM.mp hlift
  obtain ⟨⟨renamed, renames⟩, w₇, houtcome, h⟩ :=
    (refusesFor_outcome treeStart hload hrun).pass hfailure hnone h
  obtain ⟨_, w₈, hfilesLog, h⟩ := (refusesFor_log _).pass hfailure hnone h
  have hready : w₈.disk = w₇.disk := hfilesLog.disk_eq (keepsDisk_log _)
  obtain ⟨found, hdone, hcarries, -⟩ :=
    returns_outcome_renameFiles treeStart hload hrun houtcome
  rcases fails_bind.mp h with h | ⟨manifest, w₉, -, h⟩
  · have hmanifest := refusesFor_updateManifest _ _ _ _ _ _ h _ hfailure
    rw [List.mem_singleton] at hmanifest
    refine ⟨folders, _, renames, hmoves, ?_, ?_, ?_⟩
    · rw [disk_of_fails_updateManifest (hmanifest ▸ hfailure) h, hready, ← hdone]
      exact hcarries.moves
    · intro rename hrename
      rw [← hdone] at hrename
      exact isPlanned_of_mem_plan treeStart hload (hcarries.done.subset hrename)
    · rw [hmanifest]
      rintro ⟨⟩
  -- No later stage refuses: files that were loaded without an encoding are not written.
  obtain ⟨index, w₁₀, -, h⟩ := (refusesFor_buildIndex _).pass hfailure hnone h
  obtain ⟨resolved, w₁₁, hresolve, h⟩ := (refusesFor_resolve _ _ _).pass hfailure hnone h
  have hpersist : (persist tools settings.encoding resolved).RefusesFor [] := by
    refine refusesFor_persist fun hunknown file hfile => ?_
    have hvoid := isVoid_of_returns_outcome treeStart hunknown hload hrun houtcome
    have hassigned := isVoid_assignNamespaces (isVoid_applyReplacements hsearch hvoid)
      settings.rootNamespace
    exact (isVoid_of_returns_resolve hresolve hassigned file hfile).render_eq_none
  obtain ⟨count, w₁₂, -, h⟩ := hpersist.pass hfailure hnone h
  obtain ⟨_, w₁₃, -, h⟩ := (refusesFor_log _).pass hfailure hnone h
  simp only at h
  split at h
  · obtain ⟨_, w₁₄, -, h⟩ := refusesFor_installPackages.pass hfailure hnone h
    exact absurd h not_fails_pure
  · exact absurd h not_fails_pure

end Job

end Namespacer
