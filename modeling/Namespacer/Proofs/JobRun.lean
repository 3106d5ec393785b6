import Namespacer.Migration

/-!
# Runs of jobs

What a run of a job brings about. `Job.Returns` relates the workspace before a run to
the value that is returned and the workspace after it. `Job.KeepsDisk` says that no run
touches the disk, whether it returns or fails.
-/

namespace Namespacer

/-- Whether some patterns exclude a path. Patterns that cannot be read exclude nothing. -/
def Tools.excludedBy (tools : Tools) (patterns : List Text) (path : Text) : Bool :=
  match tools.patterns.excluding patterns with
  | .ok excludes => excludes path
  | .error _ => false

namespace Job

variable {α β : Type} {tools : Tools}

/-! ## Returning -/

/-- What a run of the job from a workspace returns or fails with, and the workspace that
it leaves. -/
def outcome (job : Job α) (before : Workspace) : Except Failure α × Workspace :=
  job.run.run before

theorem outcome_bind (job : Job α) (next : α → Job β) (before : Workspace) :
    (job >>= next).outcome before =
      match job.outcome before with
      | (.ok a, middle) => (next a).outcome middle
      | (.error failure, middle) => (.error failure, middle) := by
  unfold outcome
  rw [ExceptT.run_bind, StateT.run_bind]
  rcases job.run.run before with ⟨⟨⟩, _⟩ <;> rfl

/-- A run of the job from a workspace returns a value and leaves another workspace. -/
def Returns (job : Job α) (before : Workspace) (value : α) (after : Workspace) : Prop :=
  job.outcome before = (.ok value, after)

theorem returns_of_toOption {job : Job α} {before : Workspace} {a : α}
    (h : (job.outcome before).1.toOption = some a) :
    job.Returns before a (job.outcome before).2 := by
  rw [Returns]
  rcases hrun : job.outcome before with ⟨failure | value, after⟩
  · rw [hrun] at h
    cases h
  · rw [hrun] at h
    rw [Option.some.inj h]

@[simp] theorem returns_pure {a b : α} {before after : Workspace} :
    (pure a : Job α).Returns before b after ↔ b = a ∧ after = before := by
  constructor
  · rintro ⟨⟩
    exact ⟨rfl, rfl⟩
  · rintro ⟨rfl, rfl⟩
    rfl

@[simp] theorem not_returns_throw {failure : Failure} {a : α} {before after : Workspace} :
    ¬ (throw failure : Job α).Returns before a after := by
  rintro ⟨⟩

theorem returns_bind {job : Job α} {next : α → Job β} {b : β} {before after : Workspace} :
    (job >>= next).Returns before b after ↔
      ∃ a middle, job.Returns before a middle ∧ (next a).Returns middle b after := by
  unfold Returns
  rw [outcome_bind]
  rcases job.outcome before with ⟨failure | a, middle⟩
  · simp
  · simp only [Prod.mk.injEq, Except.ok.injEq]
    constructor
    · intro h
      exact ⟨a, middle, ⟨rfl, rfl⟩, h⟩
    · rintro ⟨_, _, ⟨rfl, rfl⟩, h⟩
      exact h

@[simp] theorem returns_map {job : Job α} {f : α → β} {b : β} {before after : Workspace} :
    (f <$> job).Returns before b after ↔ ∃ a, job.Returns before a after ∧ b = f a := by
  rw [map_eq_pure_bind, returns_bind]
  simp

@[simp] theorem returns_get {state before after : Workspace} :
    (get : Job Workspace).Returns before state after ↔ state = before ∧ after = before := by
  constructor
  · rintro ⟨⟩
    exact ⟨rfl, rfl⟩
  · rintro ⟨rfl, rfl⟩
    rfl

@[simp] theorem returns_modify {f : Workspace → Workspace} {u : Unit} {before after : Workspace} :
    (modify f : Job Unit).Returns before u after ↔ after = f before := by
  constructor
  · rintro ⟨⟩
    rfl
  · rintro rfl
    rfl

@[simp] theorem returns_liftM {x : StateM Workspace α} {a : α} {before after : Workspace} :
    (liftM x : Job α).Returns before a after ↔ x.run before = (a, after) := by
  have hrun : (liftM x : Job α).outcome before = (.ok (x.run before).1, (x.run before).2) := rfl
  unfold Returns
  rw [hrun]
  constructor
  · rintro ⟨⟩
    rfl
  · intro h
    rw [h]

@[simp] theorem returns_disk {found : Disk} {before after : Workspace} :
    disk.Returns before found after ↔ found = before.disk ∧ after = before := by
  simp only [disk, returns_bind, returns_get, returns_pure]
  grind

/-! ## Keeping the disk -/

/-- No run of the job changes the disk. -/
def KeepsDisk (job : Job α) : Prop := ∀ before, (job.outcome before).2.disk = before.disk

theorem Returns.disk_eq {job : Job α} (hjob : job.KeepsDisk) {a : α} {before after : Workspace}
    (h : job.Returns before a after) : after.disk = before.disk := by
  have hdisk := hjob before
  rwa [h] at hdisk

theorem keepsDisk_pure (a : α) : (pure a : Job α).KeepsDisk := fun _ => rfl

theorem keepsDisk_throw (failure : Failure) : (throw failure : Job α).KeepsDisk := fun _ => rfl

theorem KeepsDisk.bind {job : Job α} {next : α → Job β} (hjob : job.KeepsDisk)
    (hnext : ∀ a, (next a).KeepsDisk) : (job >>= next).KeepsDisk := by
  intro before
  have hdisk := hjob before
  rw [outcome_bind]
  rcases hrun : job.outcome before with ⟨failure | a, middle⟩
  · rwa [hrun] at hdisk
  · rw [hrun] at hdisk
    exact (hnext a middle).trans hdisk

theorem keepsDisk_get : (get : Job Workspace).KeepsDisk := fun _ => rfl

theorem keepsDisk_disk : disk.KeepsDisk := keepsDisk_get.bind fun _ => keepsDisk_pure _

theorem keepsDisk_log (event : LogEvent) : (log event).KeepsDisk := fun _ => rfl

theorem keepsDisk_tell (line : Text) : (tell line).KeepsDisk := fun _ => rfl

theorem keepsDisk_recordCall (arguments : List Text) : (recordCall arguments).KeepsDisk :=
  fun _ => rfl

theorem keepsDisk_failAt (fault : DiskFault) (path : Path) :
    (failAt fault path : Job α).KeepsDisk := fun _ => rfl

theorem keepsDisk_logAll (events : List LogEvent) : (logAll events).KeepsDisk := by
  induction events with
  | nil => exact keepsDisk_pure ()
  | cons event events ih => exact (keepsDisk_log event).bind fun _ => ih

theorem KeepsDisk.ite {condition : Prop} [Decidable condition] {job other : Job α}
    (hjob : job.KeepsDisk) (hother : other.KeepsDisk) :
    (if condition then job else other).KeepsDisk := by
  split
  · exact hjob
  · exact hother

theorem outcome_tryCatch (job : Job α) (handle : Failure → Job α) (before : Workspace) :
    (tryCatch job handle : Job α).outcome before =
      match job.outcome before with
      | (.ok a, middle) => (.ok a, middle)
      | (.error failure, middle) => (handle failure).outcome middle := by
  simp only [outcome, tryCatch, tryCatchThe, MonadExceptOf.tryCatch, ExceptT.tryCatch,
    ExceptT.run_mk, StateT.run_bind]
  have hrun : ExceptT.run job = job := rfl
  rw [hrun]
  rcases StateT.run job before with ⟨⟨⟩, _⟩ <;> rfl

theorem KeepsDisk.tryCatch {job : Job α} {handle : Failure → Job α} (hjob : job.KeepsDisk)
    (hhandle : ∀ failure, (handle failure).KeepsDisk) :
    (MonadExcept.tryCatch job handle : Job α).KeepsDisk := by
  intro before
  have hdisk := hjob before
  have hrun := outcome_tryCatch job handle before
  rcases hmiddle : job.outcome before with ⟨failure | a, middle⟩
  · rw [hmiddle] at hdisk hrun
    exact (congrArg (·.2.disk) hrun).trans ((hhandle failure middle).trans hdisk)
  · rw [hmiddle] at hdisk hrun
    exact (congrArg (·.2.disk) hrun).trans hdisk

/-! ## Reading and writing -/

theorem keepsDisk_readBytes (path : Path) : (readBytes path).KeepsDisk := by
  refine keepsDisk_disk.bind fun disk => ?_
  split
  · exact keepsDisk_pure _
  · exact keepsDisk_failAt _ _

theorem returns_readBytes {path : Path} {bytes : Bytes} {before after : Workspace} :
    (readBytes path).Returns before bytes after ↔
      before.disk.read path = .ok bytes ∧ after = before := by
  rw [readBytes, returns_bind]
  constructor
  · rintro ⟨found, middle, hdisk, h⟩
    obtain ⟨rfl, rfl⟩ := returns_disk.mp hdisk
    cases hread : middle.disk.read path with
    | error fault =>
      rw [hread] at h
      simp [failAt, returns_bind] at h
    | ok read =>
      rw [hread] at h
      obtain ⟨rfl, rfl⟩ := returns_pure.mp h
      exact ⟨rfl, rfl⟩
  · rintro ⟨hread, rfl⟩
    refine ⟨_, _, returns_disk.mpr ⟨rfl, rfl⟩, ?_⟩
    rw [hread]
    exact returns_pure.mpr ⟨rfl, rfl⟩

/-- A file is written by writing to the disk. -/
theorem disk_of_returns_writeBytes {path : Path} {bytes : Bytes} {u : Unit}
    {before after : Workspace} (h : (writeBytes path bytes).Returns before u after) :
    before.disk.write path bytes = .ok after.disk := by
  rw [writeBytes, returns_bind] at h
  obtain ⟨found, middle, hdisk, h⟩ := h
  obtain ⟨rfl, rfl⟩ := returns_disk.mp hdisk
  cases hwrite : middle.disk.write path bytes with
  | error fault =>
    rw [hwrite] at h
    simp [failAt, returns_bind] at h
  | ok written =>
    simp only [hwrite, change, returns_modify] at h
    rw [h]

/-- Something is renamed by renaming it on the disk. -/
theorem disk_of_returns_rename {oldPath newPath : Path} {u : Unit} {before after : Workspace}
    (h : (rename oldPath newPath).Returns before u after) :
    before.disk.rename oldPath newPath = .ok after.disk := by
  rw [rename, returns_bind] at h
  obtain ⟨found, middle, hdisk, h⟩ := h
  obtain ⟨rfl, rfl⟩ := returns_disk.mp hdisk
  cases hrename : middle.disk.rename oldPath newPath with
  | error fault =>
    rw [hrename] at h
    simp [returns_bind] at h
  | ok renamed =>
    simp only [hrename, change, returns_modify] at h
    rw [h]

theorem returns_codecNamed {name : Text} {codec : Codec} {before after : Workspace} :
    (codecNamed tools name).Returns before codec after ↔
      tools.codec? name = some codec ∧ after = before := by
  rw [codecNamed]
  cases tools.codec? name with
  | none => simp
  | some found => simp [eq_comm]

theorem keepsDisk_codecNamed (name : Text) : (codecNamed tools name).KeepsDisk := by
  rw [codecNamed]
  split
  · exact keepsDisk_pure _
  · exact keepsDisk_throw _

theorem keepsDisk_decode (encoding : Text) (bytes : Bytes) :
    (decode tools encoding bytes).KeepsDisk := by
  refine (keepsDisk_pure _).ite ((keepsDisk_codecNamed _).bind fun found => ?_)
  split
  · exact keepsDisk_pure _
  · exact keepsDisk_throw _

theorem keepsDisk_encode (encoding text : Text) : (encode tools encoding text).KeepsDisk := by
  refine (keepsDisk_codecNamed _).bind fun found => ?_
  split
  · exact keepsDisk_pure _
  · exact keepsDisk_throw _

theorem keepsDisk_readText (path : Path) (encoding : Text) :
    (readText tools path encoding).KeepsDisk :=
  (keepsDisk_readBytes path).bind fun bytes => keepsDisk_decode encoding bytes

/-- The text of a file in `latin1` has one character for each byte. -/
theorem returns_readText {path : Path} {encoding : Text} {text : Text} {before after : Workspace}
    (hencoding : tools.codec? encoding = some Encoding.latin1.codec)
    (h : (readText tools path encoding).Returns before text after) :
    ∃ bytes, before.disk.read path = .ok bytes ∧ Encoding.latin1.decode bytes = .ok text := by
  rw [readText, returns_bind] at h
  obtain ⟨bytes, middle, hread, h⟩ := h
  obtain ⟨hread, rfl⟩ := returns_readBytes.mp hread
  refine ⟨bytes, hread, ?_⟩
  rw [decode] at h
  split at h
  · rename_i hempty
    obtain ⟨rfl, -⟩ := returns_pure.mp h
    rw [List.isEmpty_iff.mp hempty]
    rfl
  · rw [returns_bind] at h
    obtain ⟨found, last, hfound, h⟩ := h
    rw [returns_codecNamed, hencoding] at hfound
    obtain ⟨⟨⟩, rfl⟩ := hfound
    simp only [Encoding.codec] at h
    cases hdecode : Encoding.latin1.decode bytes with
    | error fault => simp [hdecode] at h
    | ok found =>
      rw [hdecode] at h
      rw [(returns_pure.mp h).1]

/-! ## Steps that only look -/

theorem keepsDisk_readUtf8 (path : Path) : (readUtf8 path).KeepsDisk := by
  refine (keepsDisk_readBytes path).bind fun bytes => ?_
  split
  · exact keepsDisk_pure _
  · exact keepsDisk_throw _

theorem keepsDisk_ignoreRules (rules : Except IgnoreFault α) : (ignoreRules rules).KeepsDisk := by
  unfold ignoreRules
  split
  · exact keepsDisk_pure _
  · exact keepsDisk_throw _

theorem returns_ignoreRules {rules : Except IgnoreFault α} {found : α}
    {before after : Workspace} :
    (ignoreRules rules).Returns before found after ↔ rules = .ok found ∧ after = before := by
  unfold ignoreRules
  cases rules <;> simp [eq_comm]

theorem keepsDisk_exclusion (patterns : List Text) : (exclusion tools patterns).KeepsDisk :=
  keepsDisk_ignoreRules _

/-- What the patterns of a project exclude does not depend on the workspace. -/
theorem returns_exclusion {patterns : List Text} {excludes : Text → Bool}
    {before after : Workspace} (h : (exclusion tools patterns).Returns before excludes after) :
    excludes = tools.excludedBy patterns ∧ after = before := by
  rw [exclusion, returns_ignoreRules] at h
  refine ⟨?_, h.2⟩
  funext path
  rw [Tools.excludedBy, h.1]

theorem keepsDisk_versionedFiles : versionedFiles.KeepsDisk := by
  refine keepsDisk_disk.bind fun disk => .ite ?_ (keepsDisk_pure _)
  refine (keepsDisk_recordCall _).bind fun _ => keepsDisk_get.bind fun workspace => ?_
  split
  · exact keepsDisk_pure _
  · exact keepsDisk_pure _

theorem keepsDisk_ignoreLines : ignoreLines.KeepsDisk := by
  refine keepsDisk_disk.bind fun disk => .ite ?_ (keepsDisk_pure _)
  exact (keepsDisk_readUtf8 _).bind fun _ => keepsDisk_pure _

theorem keepsDisk_projectRules : (projectRules tools).KeepsDisk :=
  keepsDisk_ignoreLines.bind fun _ => keepsDisk_ignoreRules _

theorem keepsDisk_keptPaths : (keptPaths tools).KeepsDisk := by
  refine keepsDisk_versionedFiles.bind fun listed => ?_
  split
  · exact keepsDisk_pure _
  · exact keepsDisk_projectRules.bind fun _ => keepsDisk_pure _

theorem keepsDisk_load? (encoding : Text) (path : Path) : (load? tools encoding path).KeepsDisk := by
  refine .tryCatch ((keepsDisk_readText path encoding).bind fun _ => keepsDisk_pure _) ?_
  intro failure
  split
  · exact (keepsDisk_tell _).bind fun _ => keepsDisk_pure _
  · exact (keepsDisk_tell _).bind fun _ => keepsDisk_pure _
  · exact keepsDisk_throw _

theorem keepsDisk_loadAll (encoding : Text) (paths : List Path) :
    (loadAll tools encoding paths).KeepsDisk := by
  induction paths with
  | nil => exact keepsDisk_pure _
  | cons path paths ih =>
    exact (keepsDisk_load? encoding path).bind fun _ => ih.bind fun _ => keepsDisk_pure _

theorem keepsDisk_discover (extensions excluded : List Text) :
    (discover tools extensions excluded).KeepsDisk :=
  keepsDisk_keptPaths.bind fun _ => (keepsDisk_exclusion _).bind fun _ =>
    keepsDisk_disk.bind fun _ => keepsDisk_pure _

theorem keepsDisk_loadProject (settings : Settings) : (loadProject tools settings).KeepsDisk :=
  (keepsDisk_discover _ _).bind fun _ => keepsDisk_loadAll _ _

theorem keepsDisk_readManifest : readManifest.KeepsDisk := by
  refine keepsDisk_disk.bind fun disk => .ite ?_ (keepsDisk_pure _)
  refine (keepsDisk_readUtf8 _).bind fun text => ?_
  split
  · exact keepsDisk_pure _
  · exact keepsDisk_throw _

theorem keepsDisk_installPackages : installPackages.KeepsDisk := by
  refine (keepsDisk_recordCall _).bind fun _ => keepsDisk_get.bind fun workspace => ?_
  split
  · exact keepsDisk_throw _
  · exact keepsDisk_throw _
  · exact keepsDisk_pure _
  · exact keepsDisk_throw _

theorem keepsDisk_buildIndex (files : List SourceFile) : (buildIndex files).KeepsDisk :=
  (keepsDisk_logAll _).bind fun _ => keepsDisk_pure _

theorem keepsDisk_ensureFresh (index : SymbolIndex) (files : List SourceFile) :
    (ensureFresh index files).KeepsDisk :=
  (keepsDisk_throw _).ite (keepsDisk_pure _)

theorem keepsDisk_resolveEach (index : SymbolIndex) (files : List SourceFile) :
    (resolveEach tools index files).KeepsDisk := by
  induction files with
  | nil => exact keepsDisk_pure _
  | cons file files ih =>
    refine KeepsDisk.bind ?_ fun _ => ih.bind fun _ => keepsDisk_pure _
    exact (keepsDisk_logAll _).bind fun _ => keepsDisk_pure _

theorem keepsDisk_resolve (fast : Bool) (files : List SourceFile) (index : SymbolIndex) :
    (resolve tools fast files index).KeepsDisk := by
  refine .ite ?_ ((keepsDisk_ensureFresh _ _).bind fun _ => keepsDisk_resolveEach _ _)
  refine (keepsDisk_ensureFresh _ _).bind fun _ => ?_
  exact (keepsDisk_pure _).ite ((keepsDisk_throw _).ite (keepsDisk_pure _))

end Job

end Namespacer
