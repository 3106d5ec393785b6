import Namespacer.Proofs.StoredFiles

/-!
# Which files are written

Two stages of a migration write files: bringing the manifest up to date, which writes the
file that the path of the manifest leads to, and persisting, which writes files of the
registry. `Disk.WritesAt` says that nothing but the files at some places has changed.

* `Job.writesAt_updateManifest`, `Job.writesAt_persist`: the places of the two stages.
* `Disk.WritesAt.stores`: what is stored at a path afterwards.
-/

namespace Namespacer

variable {tools : Tools}

namespace Disk

/-- Only files at some places were written: everything else is as it was, no file is gone, and all
paths lead where they led. -/
structure WritesAt (places : Place → Prop) (before after : Disk) : Prop where
  tree : after.IsTree
  home : after.around.home = before.around.home
  kept : ∀ place, ¬ places place → after.at? place = before.at? place
  files : ∀ place bytes, before.at? place = some (.file bytes) →
    ∃ held, after.at? place = some (.file held)
  walks : ∀ followsLast path place, before.locate followsLast path = .ok place →
    after.locate followsLast path = .ok place

namespace WritesAt

variable {places : Place → Prop} {before middle after : Disk}

theorem refl (tree : before.IsTree) : WritesAt places before before where
  tree := tree
  home := rfl
  kept _ _ := rfl
  files _ bytes h := ⟨bytes, h⟩
  walks _ _ _ h := h

theorem trans (h : WritesAt places before middle) (h' : WritesAt places middle after) :
    WritesAt places before after where
  tree := h'.tree
  home := h'.home.trans h.home
  kept place hnot := (h'.kept place hnot).trans (h.kept place hnot)
  files place bytes hget := by
    obtain ⟨held, hheld⟩ := h.files place bytes hget
    exact h'.files place held hheld
  walks followsLast path place hlocate :=
    h'.walks followsLast path place (h.walks followsLast path place hlocate)

theorem mono {others : Place → Prop} (h : WritesAt places before after)
    (hothers : ∀ place, places place → others place) : WritesAt others before after :=
  ⟨h.tree, h.home, fun place hnot => h.kept place fun hmem => hnot (hothers place hmem),
    h.files, h.walks⟩

theorem namesFile (h : WritesAt places before after) {path : Path} (hpath : before.NamesFile path) :
    after.NamesFile path := by
  obtain ⟨hanchor, bytes, hget⟩ := hpath
  exact ⟨hanchor, h.files (.inside path.names) bytes hget⟩

/-- A file that holds a text holds it afterwards, or holds another one and is among those that
were written. -/
theorem stores (h : WritesAt places before after) {path : Path} {text : Text}
    (hstores : before.Stores path text) :
    ∃ held, after.Stores path held ∧ (held = text ∨ places (.inside path.names)) := by
  by_cases hplace : places (.inside path.names)
  · obtain ⟨hanchor, bytes, hget⟩ := h.namesFile hstores.namesFile
    exact ⟨_, ⟨hanchor, bytes, hget, Encoding.latin1_decode bytes⟩, .inr hplace⟩
  · obtain ⟨hanchor, bytes, hget, hdecode⟩ := hstores
    have hkept : after.get? path.names = before.get? path.names :=
      h.kept (.inside path.names) hplace
    exact ⟨text, ⟨hanchor, bytes, hkept.trans hget, hdecode⟩, .inl rfl⟩

end WritesAt

/-- Writing to a path changes the file that it leads to. -/
theorem IsTree.writesAt_write {before after : Disk} (tree : before.IsTree) {path : Path}
    {bytes : Bytes} (h : before.write path bytes = .ok after) :
    WritesAt (fun place => before.locate true path = .ok place) before after := by
  obtain ⟨place, hlocate, hplace, hdirectory, rfl⟩ := tree.write_ok h
  have hlink := (tree.locate_ok hlocate).not_link rfl
  refine ⟨tree.setAt hplace hdirectory bytes, around_home_setAt .., ?_, ?_, ?_⟩
  · intro other hother
    refine at?_setAt_of_ne _ ?_
    rintro rfl
    exact hother hlocate
  · intro other held hget
    by_cases heq : other = place
    · exact ⟨bytes, by rw [heq, at?_setAt_self _ hdirectory]⟩
    · exact ⟨held, by rw [at?_setAt_of_ne _ heq, hget]⟩
  · exact fun _ _ _ => locate_setAt_file bytes hdirectory hlink

end Disk

namespace Job

/-- Bringing the manifest up to date writes the file that its path leads to. -/
theorem writesAt_updateManifest {paths : List (List Codes)} {root constraint : Codes}
    {result : Json × List (Codes × Codes)} {before after : Workspace} (tree : before.disk.IsTree)
    (h : (updateManifest paths root constraint).Returns before result after) :
    Disk.WritesAt (fun place => before.disk.locate true Manifest.path = .ok place)
      before.disk after.disk := by
  rw [updateManifest, returns_bind] at h
  obtain ⟨manifest, w₁, hmanifest, h⟩ := h
  have hdisk := hmanifest.disk_eq keepsDisk_readManifest
  split at h
  · exact absurd h not_returns_throw
  rw [returns_bind] at h
  obtain ⟨_, w₂, hwrite, h⟩ := h
  rw [returns_bind] at h
  obtain ⟨_, w₃, hlog, h⟩ := h
  obtain ⟨-, rfl⟩ := returns_pure.mp h
  rw [hlog.disk_eq (keepsDisk_log _)]
  rw [writeManifest, returns_bind] at hwrite
  obtain ⟨_, w₄, hempty, hwrite⟩ := hwrite
  split at hwrite
  · have hfirst := disk_of_returns_writeBytes hempty
    rw [hdisk] at hfirst
    have hwrites := tree.writesAt_write hfirst
    refine hwrites.trans ((hwrites.tree.writesAt_write (disk_of_returns_writeBytes hwrite)).mono ?_)
    -- The emptied file is where the path leads before and after it was emptied.
    intro place hlocate
    obtain ⟨first, hfound, -⟩ := tree.write_ok hfirst
    have hsame := hwrites.walks _ _ _ hfound
    rw [hlocate, Except.ok.injEq] at hsame
    rwa [hsame]
  · exact absurd hwrite not_returns_throw

end Job

/-! ## Persisting -/

/-- The text that is written for a file, if one is: the rendered text, unless it equals
the contents. -/
def SourceFile.written? (file : SourceFile) : Option Text :=
  file.render.filter (· != file.contents)

namespace Job

/-- A file is persisted by writing the text that is written for it, if there is one. -/
theorem persistFile_eq (encoding : Text) (file : SourceFile) :
    persistFile tools encoding file =
      (if file.lacksOpenTag then log (.missingOpenTag file.path.toText) else pure ()) >>= fun _ =>
        file.written?.elim (pure false) fun text =>
          writeText tools file.path text encoding >>= fun _ => pure true := by
  rw [persistFile]
  cases hrender : file.render with
  | none =>
    have hwritten : file.written? = none := by rw [SourceFile.written?, hrender, Option.filter_none]
    split <;> simp [hwritten]
  | some text =>
    by_cases heq : text = file.contents
    · have hwritten : file.written? = none := by
        rw [SourceFile.written?, hrender, Option.filter_some, if_neg (by simp [heq])]
      split <;> simp [hwritten, heq]
    · have hwritten : file.written? = some text := by
        rw [SourceFile.written?, hrender, Option.filter_some, if_pos (by simpa using heq)]
      split <;> simp [hwritten, heq]

/-- The first file is persisted before the others, and is counted if it was written. -/
theorem returns_persist_cons {encoding : Text} {file : SourceFile} {files : List SourceFile}
    {count : Nat} {before after : Workspace} :
    (persist tools encoding (file :: files)).Returns before count after ↔
      ∃ written middle others, (persistFile tools encoding file).Returns before written middle ∧
        (persist tools encoding files).Returns middle others after ∧
        count = if written then others + 1 else others := by
  rw [persist, returns_bind]
  constructor
  · rintro ⟨written, middle, hfile, h⟩
    obtain ⟨others, last, hothers, h⟩ := returns_bind.mp h
    obtain ⟨rfl, rfl⟩ := returns_pure.mp h
    exact ⟨written, middle, others, hfile, hothers, rfl⟩
  · rintro ⟨written, middle, others, hfile, hothers, rfl⟩
    refine ⟨written, middle, hfile, returns_bind.mpr ⟨others, after, hothers, ?_⟩⟩
    exact returns_pure.mpr ⟨rfl, rfl⟩

/-- A file of the registry is left as it is or written. -/
theorem write_of_returns_persistFile {encoding : Text} {file : SourceFile} {written : Bool}
    {before after : Workspace} (h : (persistFile tools encoding file).Returns before written after) :
    after.disk = before.disk ∨
      ∃ bytes, before.disk.write file.path bytes = .ok after.disk := by
  rw [persistFile_eq, returns_bind] at h
  obtain ⟨_, middle, hlog, h⟩ := h
  have hdisk : middle.disk = before.disk :=
    hlog.disk_eq ((keepsDisk_log _).ite (keepsDisk_pure _))
  rw [← hdisk]
  cases hwritten : file.written? with
  | none =>
    rw [hwritten] at h
    exact .inl (congrArg Workspace.disk (returns_pure.mp h).2)
  | some text =>
    rw [hwritten, Option.elim_some, returns_bind] at h
    obtain ⟨_, last, hwrite, h⟩ := h
    obtain ⟨-, rfl⟩ := returns_pure.mp h
    rw [writeText, returns_bind] at hwrite
    obtain ⟨bytes, inner, hencode, hwrite⟩ := hwrite
    have hinner : inner.disk = middle.disk := hencode.disk_eq (keepsDisk_encode _ _)
    exact .inr ⟨bytes, hinner ▸ disk_of_returns_writeBytes hwrite⟩

/-- Persisting files that are regular files writes at most these. -/
theorem writesAt_persist {encoding : Text} {files : List SourceFile} {count : Nat}
    {before after : Workspace} (tree : before.disk.IsTree)
    (hfiles : ∀ file ∈ files, before.disk.NamesFile file.path)
    (h : (persist tools encoding files).Returns before count after) :
    Disk.WritesAt (· ∈ files.map fun file => .inside file.path.names) before.disk after.disk := by
  induction files generalizing before count with
  | nil =>
    rw [(returns_pure.mp h).2]
    exact .refl tree
  | cons file files ih =>
    obtain ⟨written, middle, others, hfile, hothers, -⟩ := returns_persist_cons.mp h
    rw [List.forall_mem_cons] at hfiles
    have hstep : Disk.WritesAt (· = .inside file.path.names) before.disk middle.disk := by
      rcases write_of_returns_persistFile hfile with hdisk | ⟨bytes, hwrite⟩
      · rw [hdisk]
        exact .refl tree
      · refine (tree.writesAt_write hwrite).mono fun place hlocate => ?_
        rw [hfiles.1.locate tree, Except.ok.injEq] at hlocate
        exact hlocate.symm
    have hrest : ∀ other ∈ files, middle.disk.NamesFile other.path :=
      fun other hother => hstep.namesFile (hfiles.2 other hother)
    refine (hstep.mono ?_).trans ((ih hstep.tree hrest hothers).mono ?_)
    · rintro place rfl
      exact List.mem_cons_self
    · exact fun place hplace => List.mem_cons_of_mem _ hplace

end Job

end Namespacer
