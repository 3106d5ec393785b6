import Namespacer.Proofs.StoredFiles

/-!
# Runs that do not depend on the record

A workspace keeps a record of what was reported, started and changed. No step of a job reads
it: from workspaces that differ only in their records (`Workspace.fresh`), finding, reading and
renaming files return the same and leave workspaces that differ only in their records.

* `Job.IgnoresRecord`: what this means for a job, with its rules for composed jobs.
* `Job.ignoresRecord_loadProject`: finding and reading the files of a project.
* `renameFiles_of_fresh_eq`: renaming files.
-/

namespace Namespacer

variable {tools : Tools}

theorem Workspace.fresh_eq_iff {a b : Workspace} :
    a.fresh = b.fresh ↔
      a.root = b.root ∧ a.disk = b.disk ∧ a.git = b.git ∧ a.composer = b.composer := by
  simp [Workspace.fresh]

namespace Job

variable {α β : Type}

/-- Runs of the job from workspaces that differ only in their records have the same result and
leave such workspaces. -/
def IgnoresRecord (job : Job α) : Prop :=
  ∀ a b : Workspace, a.fresh = b.fresh →
    ∃ b', job.outcome b = ((job.outcome a).1, b') ∧ (job.outcome a).2.fresh = b'.fresh

theorem IgnoresRecord.returns {job : Job α} (hjob : job.IgnoresRecord) {a b a' : Workspace}
    {value : α} (h : a.fresh = b.fresh) (hreturns : job.Returns a value a') :
    ∃ b', job.Returns b value b' ∧ a'.fresh = b'.fresh := by
  obtain ⟨b', hb, hfresh⟩ := hjob a b h
  rw [hreturns] at hb hfresh
  exact ⟨b', hb, hfresh⟩

/-! ## Composed jobs -/

theorem ignoresRecord_pure (a : α) : (pure a : Job α).IgnoresRecord := fun _ b h => ⟨b, rfl, h⟩

theorem ignoresRecord_throw (failure : Failure) : (throw failure : Job α).IgnoresRecord :=
  fun _ b h => ⟨b, rfl, h⟩

theorem IgnoresRecord.bind {job : Job α} {next : α → Job β} (hjob : job.IgnoresRecord)
    (hnext : ∀ a, (next a).IgnoresRecord) : (job >>= next).IgnoresRecord := by
  intro a b h
  obtain ⟨b', hb, hfresh⟩ := hjob a b h
  rw [outcome_bind, outcome_bind, hb]
  generalize job.outcome a = found at hfresh ⊢
  rcases found with ⟨failure | value, a'⟩
  · exact ⟨b', rfl, hfresh⟩
  · exact hnext value a' b' hfresh

theorem IgnoresRecord.tryCatch {job : Job α} {handle : Failure → Job α}
    (hjob : job.IgnoresRecord) (hhandle : ∀ failure, (handle failure).IgnoresRecord) :
    (MonadExcept.tryCatch job handle : Job α).IgnoresRecord := by
  intro a b h
  obtain ⟨b', hb, hfresh⟩ := hjob a b h
  have hrunA := outcome_tryCatch job handle a
  have hrunB := outcome_tryCatch job handle b
  rw [hb] at hrunB
  rcases hA : job.outcome a with ⟨failure | value, a'⟩
  · rw [hA] at hrunA hrunB hfresh
    obtain ⟨last, hlast, hrest⟩ := hhandle failure a' b' hfresh
    exact ⟨last, hrunB.trans (hlast.trans (congrArg (·.1, last) hrunA.symm)),
      (congrArg (·.2.fresh) hrunA).trans hrest⟩
  · rw [hA] at hrunA hrunB hfresh
    exact ⟨b', hrunB.trans (congrArg (·.1, b') hrunA.symm),
      (congrArg (·.2.fresh) hrunA).trans hfresh⟩

theorem IgnoresRecord.ite {condition : Prop} [Decidable condition] {job other : Job α}
    (hjob : job.IgnoresRecord) (hother : other.IgnoresRecord) :
    (if condition then job else other).IgnoresRecord := by
  split
  · exact hjob
  · exact hother

/-- A job that looks at the workspace, but not at its record. -/
theorem ignoresRecord_get_bind {next : Workspace → Job α}
    (hsame : ∀ a b : Workspace, a.fresh = b.fresh → next a = next b)
    (hnext : ∀ workspace, (next workspace).IgnoresRecord) :
    (get >>= next).IgnoresRecord := by
  intro a b h
  have hget (workspace : Workspace) :
      (get >>= next).outcome workspace = (next workspace).outcome workspace := rfl
  rw [hget, hget, hsame a b h]
  exact hnext b a b h

theorem ignoresRecord_disk : disk.IgnoresRecord :=
  ignoresRecord_get_bind (fun _ _ h => by rw [(Workspace.fresh_eq_iff.mp h).2.1])
    fun _ => ignoresRecord_pure _

theorem ignoresRecord_report (notice : Notice) : (report notice).IgnoresRecord :=
  fun _ _ h => ⟨_, rfl, h⟩

theorem ignoresRecord_recordCall (arguments : List Text) : (recordCall arguments).IgnoresRecord :=
  fun _ _ h => ⟨_, rfl, h⟩

theorem ignoresRecord_change (made : Change) (disk : Disk) : (change made disk).IgnoresRecord := by
  refine fun a b h => ⟨_, rfl, ?_⟩
  obtain ⟨hroot, -, hgit, hcomposer⟩ := Workspace.fresh_eq_iff.mp h
  exact Workspace.fresh_eq_iff.mpr ⟨hroot, rfl, hgit, hcomposer⟩

theorem ignoresRecord_failAt (fault : DiskFault) (path : Path) :
    (failAt fault path : Job α).IgnoresRecord :=
  ignoresRecord_get_bind (fun _ _ h => by rw [(Workspace.fresh_eq_iff.mp h).1])
    fun _ => ignoresRecord_throw _

/-! ## Reading -/

theorem ignoresRecord_readBytes (path : Path) : (readBytes path).IgnoresRecord := by
  refine ignoresRecord_disk.bind fun disk => ?_
  split
  · exact ignoresRecord_pure _
  · exact ignoresRecord_failAt _ _

theorem ignoresRecord_decode (encoding : Text) (bytes : Bytes) :
    (decode tools encoding bytes).IgnoresRecord := by
  refine (ignoresRecord_pure _).ite (IgnoresRecord.bind ?_ fun found => ?_)
  · rw [codecNamed]
    split
    · exact ignoresRecord_pure _
    · exact ignoresRecord_throw _
  · split
    · exact ignoresRecord_pure _
    · exact ignoresRecord_throw _

theorem ignoresRecord_readText (path : Path) (encoding : Text) :
    (readText tools path encoding).IgnoresRecord :=
  (ignoresRecord_readBytes path).bind fun bytes => ignoresRecord_decode encoding bytes

theorem ignoresRecord_readUtf8 (path : Path) : (readUtf8 path).IgnoresRecord := by
  refine (ignoresRecord_readBytes path).bind fun bytes => ?_
  split
  · exact ignoresRecord_pure _
  · exact ignoresRecord_throw _

/-! ## Finding files -/

theorem ignoresRecord_ignoreRules (rules : Except IgnoreFault α) :
    (ignoreRules rules).IgnoresRecord := by
  unfold ignoreRules
  split
  · exact ignoresRecord_pure _
  · exact ignoresRecord_throw _

theorem ignoresRecord_versionedFiles : versionedFiles.IgnoresRecord := by
  refine ignoresRecord_disk.bind fun disk => .ite ?_ (ignoresRecord_pure _)
  refine (ignoresRecord_recordCall _).bind fun _ => ignoresRecord_get_bind (fun a b h => ?_)
    fun workspace => ?_
  · simp only [(Workspace.fresh_eq_iff.mp h).2.2.1]
  · split
    · exact ignoresRecord_pure _
    · exact ignoresRecord_pure _

theorem ignoresRecord_ignoreLines : ignoreLines.IgnoresRecord := by
  refine ignoresRecord_disk.bind fun disk => .ite ?_ (ignoresRecord_pure _)
  exact (ignoresRecord_readUtf8 _).bind fun _ => ignoresRecord_pure _

theorem ignoresRecord_projectRules : (projectRules tools).IgnoresRecord :=
  ignoresRecord_ignoreLines.bind fun _ => ignoresRecord_ignoreRules _

theorem ignoresRecord_keptPaths : (keptPaths tools).IgnoresRecord := by
  refine ignoresRecord_versionedFiles.bind fun listed => ?_
  split
  · exact ignoresRecord_pure _
  · exact ignoresRecord_projectRules.bind fun _ => ignoresRecord_pure _

theorem ignoresRecord_discover (extensions excluded : List Text) :
    (discover tools extensions excluded).IgnoresRecord := by
  refine ignoresRecord_keptPaths.bind fun _ => IgnoresRecord.bind ?_ fun _ =>
    ignoresRecord_disk.bind fun _ => ignoresRecord_pure _
  exact ignoresRecord_ignoreRules _

theorem ignoresRecord_load? (encoding : Text) (path : Path) :
    (load? tools encoding path).IgnoresRecord := by
  refine .tryCatch ((ignoresRecord_readText path encoding).bind fun _ => ignoresRecord_pure _) ?_
  intro failure
  split
  · exact (ignoresRecord_report _).bind fun _ => ignoresRecord_pure _
  · exact (ignoresRecord_report _).bind fun _ => ignoresRecord_pure _
  · exact ignoresRecord_throw _

theorem ignoresRecord_loadAll (encoding : Text) (paths : List Path) :
    (loadAll tools encoding paths).IgnoresRecord := by
  induction paths with
  | nil => exact ignoresRecord_pure _
  | cons path paths ih =>
    exact (ignoresRecord_load? encoding path).bind fun _ => ih.bind fun _ => ignoresRecord_pure _

theorem ignoresRecord_loadProject (settings : Settings) :
    (loadProject tools settings).IgnoresRecord :=
  (ignoresRecord_discover _ _).bind fun _ => ignoresRecord_loadAll _ _

/-! ## Renaming files -/

theorem ignoresRecord_rename (oldPath newPath : Path) :
    (rename oldPath newPath).IgnoresRecord := by
  refine ignoresRecord_disk.bind fun disk => ?_
  split
  · exact ignoresRecord_change _ _
  · exact ignoresRecord_get_bind (fun a b h => by rw [(Workspace.fresh_eq_iff.mp h).1])
      fun _ => ignoresRecord_throw _

theorem ignoresRecord_renameFile (plan : FileRename) : (renameFile plan).IgnoresRecord := by
  have hrename : (do
      rename plan.oldPath plan.newPath
      pure true : Job Bool).IgnoresRecord :=
    (ignoresRecord_rename _ _).bind fun _ => ignoresRecord_pure _
  refine ignoresRecord_disk.bind fun disk => .ite ?_ hrename
  split
  · exact ignoresRecord_failAt _ _
  · exact .ite ((ignoresRecord_report _).bind fun _ => ignoresRecord_pure _) hrename

end Job

theorem carryOut_of_fresh_eq {a b : Workspace} (h : a.fresh = b.fresh) (plans : List FileRename)
    (registry : Registry) :
    ∃ b', (carryOut plans registry).run b = (((carryOut plans registry).run a).1, b') ∧
      ((carryOut plans registry).run a).2.fresh = b'.fresh := by
  induction plans generalizing a b registry with
  | nil => exact ⟨b, rfl, h⟩
  | cons plan plans ih =>
    obtain ⟨b', hb, hfresh⟩ := Job.ignoresRecord_renameFile plan a b h
    rw [carryOut_cons, carryOut_cons, hb]
    generalize (Job.renameFile plan).outcome a = found at hfresh ⊢
    rcases found with ⟨failure | _ | _, a'⟩
    · exact ⟨b', rfl, hfresh⟩
    · exact ih hfresh registry
    · obtain ⟨last, hlast, hrest⟩ := ih hfresh (registry.renamed plan)
      refine ⟨last, ?_, hrest⟩
      dsimp only
      rw [hlast]
      rfl

/-- From workspaces that differ only in their records, renaming files has the same result and
leaves such workspaces. -/
theorem renameFiles_of_fresh_eq {a b : Workspace} (h : a.fresh = b.fresh)
    (files : List SourceFile) :
    ∃ b', (renameFiles files).run b = (((renameFiles files).run a).1, b') ∧
      ((renameFiles files).run a).2.fresh = b'.fresh := by
  obtain ⟨b', hb, hfresh⟩ :=
    carryOut_of_fresh_eq h (FileRename.plan files) (Registry.ofFiles files)
  rw [run_renameFiles, run_renameFiles, hb]
  generalize (carryOut (FileRename.plan files) (Registry.ofFiles files)).run a = found at hfresh ⊢
  obtain ⟨run, a'⟩ := found
  refine ⟨b', ?_, ?_⟩
  · dsimp only
    split
    · rfl
    · split <;> rfl
  · dsimp only
    split
    · exact hfresh
    · split <;> exact hfresh

end Namespacer
