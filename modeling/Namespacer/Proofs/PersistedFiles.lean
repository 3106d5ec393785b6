import Namespacer.Proofs.FailedStages
import Namespacer.Proofs.OpenTags
import Namespacer.StandardTools

/-!
# Files are persisted one after another

Persisting goes through the records of a project. A record without a rendering is passed over. A
rendering is encoded, and only then written; if it cannot be encoded, persisting fails, and the
file of the record has not been opened. A rendering is longer than the contents, so it is never
taken for no change.

* `SourceFile.written?_eq_render`: every rendering is to be written.
* `Job.persistFile_cases`: the three outcomes for one record.
* `Job.Persists`: the files of some records hold their encoded renderings, and nothing else has
  changed; `Job.persist_cases`: after a run this holds of all records, or of those before the one
  that has failed.
* `Job.persists_of_persist`: both ends of a run.
-/

namespace Namespacer

variable {tools : Tools}

theorem SourceFile.written?_eq_render (file : SourceFile) : file.written? = file.render := by
  rw [SourceFile.written?]
  cases hrender : file.render with
  | none => rfl
  | some text =>
    have hne : text ≠ file.contents := by
      rintro rfl
      exact absurd (SourceFile.length_lt_of_render hrender) (Nat.lt_irrefl _)
    rw [Option.filter_some, if_pos (by simpa using hne)]

/-- The bytes of the rendering of a file, if it has one that can be encoded. -/
def SourceFile.encoded? (tools : Tools) (encoding : Text) (file : SourceFile) : Option Bytes := do
  let text ← file.render
  let found ← tools.codec? encoding
  (found.encode text).toOption

namespace Job

variable {encoding text : Text} {file : SourceFile} {files : List SourceFile}
  {before middle after : Workspace} {failure : Failure}

/-- A failure because a text cannot be encoded: there is no encoding with the name, or it has no
bytes for the text. -/
def IsEncodingFailure (tools : Tools) (encoding text : Text) (failure : Failure) : Prop :=
  tools.codec? encoding = none ∧ failure = .unknownEncoding encoding ∨
    ∃ found fault, tools.codec? encoding = some found ∧ found.encode text = .error fault ∧
      failure = .encoding fault

/-! ## One record -/

theorem returns_writeBytes {path : Path} {bytes : Bytes} {written : Disk}
    (h : before.disk.write path bytes = .ok written) :
    ∃ after, (writeBytes path bytes).Returns before () after ∧ after.disk = written ∧
      after.changes = before.changes ++ [.written path bytes] := by
  refine ⟨{ before with disk := written, changes := before.changes ++ [.written path bytes] },
    ?_, rfl, rfl⟩
  rw [writeBytes, returns_bind]
  refine ⟨_, _, returns_disk.mpr ⟨rfl, rfl⟩, ?_⟩
  rw [h]
  exact returns_modify.mpr rfl

theorem returns_encode {found : Codec} {bytes : Bytes}
    (hfound : tools.codec? encoding = some found) (h : found.encode text = .ok bytes) :
    (encode tools encoding text).Returns before bytes before := by
  rw [encode, returns_bind]
  refine ⟨found, before, returns_codecNamed.mpr ⟨hfound, rfl⟩, ?_⟩
  rw [h]
  exact returns_pure.mpr ⟨rfl, rfl⟩

/-- Encoding a text gives bytes or fails, and does nothing else. -/
theorem encode_cases (encoding text : Text) (before : Workspace) :
    (∃ found bytes, tools.codec? encoding = some found ∧ found.encode text = .ok bytes ∧
        (encode tools encoding text).Returns before bytes before) ∨
      ∃ failure, IsEncodingFailure tools encoding text failure ∧
        (encode tools encoding text).Fails before failure before := by
  cases hfound : tools.codec? encoding with
  | none =>
    refine .inr ⟨.unknownEncoding encoding, .inl ⟨hfound, rfl⟩, fails_bind.mpr (.inl ?_)⟩
    rw [codecNamed, hfound]
    exact fails_throw.mpr ⟨rfl, rfl⟩
  | some found =>
    cases hbytes : found.encode text with
    | ok bytes => exact .inl ⟨found, bytes, rfl, hbytes, returns_encode hfound hbytes⟩
    | error fault =>
      refine .inr ⟨.encoding fault, .inr ⟨found, fault, hfound, hbytes, rfl⟩, ?_⟩
      refine fails_bind.mpr (.inr ⟨found, before, returns_codecNamed.mpr ⟨hfound, rfl⟩, ?_⟩)
      rw [hbytes]
      exact fails_throw.mpr ⟨rfl, rfl⟩

/-- What is done for one record: it is passed over, its file is written, or it fails. -/
theorem persistFile_cases (encoding : Text) (tree : before.disk.IsTree)
    (hfile : before.disk.NamesFile file.path) :
    (file.render = none ∧ ∃ after, (persistFile tools encoding file).Returns before false after ∧
        after.disk = before.disk ∧ after.changes = before.changes) ∨
    (∃ text found bytes after, file.render = some text ∧
        tools.codec? encoding = some found ∧ found.encode text = .ok bytes ∧
        (persistFile tools encoding file).Returns before true after ∧
        after.disk = before.disk.set file.path.names (.file bytes) ∧
        after.changes = before.changes ++ [.written file.path bytes]) ∨
    ∃ text failure after, file.render = some text ∧ IsEncodingFailure tools encoding text failure ∧
      (persistFile tools encoding file).Fails before failure after ∧
      after.disk = before.disk ∧ after.changes = before.changes := by
  obtain ⟨start, hstart, hdisk, hchanges⟩ : ∃ start : Workspace,
      (if file.lacksOpenTag then log (.missingOpenTag file.path.toText) else pure () :
        Job Unit).Returns before () start ∧ start.disk = before.disk ∧
          start.changes = before.changes := by
    split
    · exact ⟨_, returns_modify.mpr rfl, rfl, rfl⟩
    · exact ⟨before, returns_pure.mpr ⟨rfl, rfl⟩, rfl, rfl⟩
  rw [persistFile_eq, file.written?_eq_render]
  cases hrender : file.render with
  | none =>
    refine .inl ⟨rfl, start, returns_bind.mpr ⟨(), start, hstart, ?_⟩, hdisk, hchanges⟩
    exact returns_pure.mpr ⟨rfl, rfl⟩
  | some text =>
    rcases encode_cases encoding text start with
      ⟨found, bytes, hfound, hbytes, hencode⟩ | ⟨failure, hfailure, hencode⟩
    · have hwrite : start.disk.write file.path bytes =
          .ok (before.disk.set file.path.names (.file bytes)) := by
        rw [hdisk, hfile.write_eq tree]
      obtain ⟨after, hreturns, hwritten, hlisted⟩ := returns_writeBytes hwrite
      rw [hchanges] at hlisted
      refine .inr (.inl ⟨text, found, bytes, after, rfl, hfound, hbytes, ?_, hwritten, hlisted⟩)
      refine returns_bind.mpr ⟨(), start, hstart, returns_bind.mpr ⟨(), after, ?_, ?_⟩⟩
      · exact returns_bind.mpr ⟨bytes, start, hencode, hreturns⟩
      · exact returns_pure.mpr ⟨rfl, rfl⟩
    · refine .inr (.inr ⟨text, failure, start, rfl, hfailure, ?_, hdisk, hchanges⟩)
      refine fails_bind.mpr (.inr ⟨(), start, hstart, fails_bind.mpr (.inl ?_)⟩)
      exact fails_bind.mpr (.inl hencode)

/-! ## All records -/

/-- The files of some records hold their encoded renderings, every other location is as it was,
and the files were written in the order of the records. -/
structure Persists (tools : Tools) (encoding : Text) (files : List SourceFile)
    (before after : Workspace) : Prop where
  written : ∀ file ∈ files, ∀ text, file.render = some text →
    ∃ found bytes, tools.codec? encoding = some found ∧ found.encode text = .ok bytes ∧
      after.disk.get? file.path.names = some (.file bytes)
  kept : ∀ location, (∀ file ∈ files, file.render ≠ none → file.path.names ≠ location) →
    after.disk.get? location = before.disk.get? location
  changes : after.changes = before.changes ++
    files.filterMap fun file => (file.encoded? tools encoding).map (Change.written file.path)

namespace Persists

theorem nil (encoding : Text) (hdisk : after.disk = before.disk)
    (hchanges : after.changes = before.changes) : Persists tools encoding [] before after where
  written := by simp
  kept := by simp [hdisk]
  changes := by simp [hchanges]

/-- A record that is passed over. -/
theorem skip (h : Persists tools encoding files middle after) (hrender : file.render = none)
    (hdisk : middle.disk = before.disk) (hchanges : middle.changes = before.changes) :
    Persists tools encoding (file :: files) before after where
  written := by
    refine List.forall_mem_cons.mpr ⟨fun text htext => ?_, h.written⟩
    rw [hrender] at htext
    cases htext
  kept location hlocation := by
    rw [h.kept location (List.forall_mem_cons.mp hlocation).2, hdisk]
  changes := by
    have hencoded : file.encoded? tools encoding = none := by rw [SourceFile.encoded?, hrender]; rfl
    rw [h.changes, hchanges, List.filterMap_cons, hencoded]
    rfl

/-- A record whose file is written before those of others. -/
theorem cons {found : Codec} {bytes : Bytes}
    (h : Persists tools encoding files middle after)
    (hfile : file.path.names ≠ []) (hapart : ∀ other ∈ files, other.path.names ≠ file.path.names)
    (hrender : file.render = some text) (hfound : tools.codec? encoding = some found)
    (hbytes : found.encode text = .ok bytes)
    (hdisk : middle.disk = before.disk.set file.path.names (.file bytes))
    (hchanges : middle.changes = before.changes ++ [.written file.path bytes]) :
    Persists tools encoding (file :: files) before after where
  written := by
    refine List.forall_mem_cons.mpr ⟨fun result hresult => ?_, h.written⟩
    rw [hrender, Option.some.injEq] at hresult
    subst hresult
    refine ⟨found, bytes, hfound, hbytes, ?_⟩
    rw [h.kept _ fun other hother _ => hapart other hother, hdisk, Disk.get?_set_self _ hfile]
  kept location hlocation := by
    rw [List.forall_mem_cons] at hlocation
    have hne : file.path.names ≠ location := hlocation.1 (by simp [hrender])
    rw [h.kept location hlocation.2, hdisk, Disk.get?_set_of_ne _ hne.symm]
  changes := by
    have hencoded : file.encoded? tools encoding = some bytes := by
      simp [SourceFile.encoded?, hrender, hfound, hbytes, Except.toOption]
    rw [h.changes, hchanges, List.filterMap_cons, hencoded, List.append_assoc]
    rfl

end Persists

/-- Persisting fails at the first record, or at one behind it. -/
theorem fails_persist_cons {failure : Failure} :
    (persist tools encoding (file :: files)).Fails before failure after ↔
      (persistFile tools encoding file).Fails before failure after ∨
        ∃ written middle, (persistFile tools encoding file).Returns before written middle ∧
          (persist tools encoding files).Fails middle failure after := by
  rw [persist, fails_bind]
  refine or_congr_right (exists₂_congr fun written middle => and_congr_right fun _ => ?_)
  rw [fails_bind]
  refine or_iff_left ?_
  rintro ⟨others, last, -, hpure⟩
  cases hpure

variable (tools) in
/-- Persisting returns the number of the renderings, and all of them are written, or fails at a
record, and those before it are. -/
theorem persist_cases (encoding : Text) (tree : before.disk.IsTree)
    (hapart : (files.map (·.path.names)).Nodup)
    (hfiles : ∀ file ∈ files, before.disk.NamesFile file.path) :
    (∃ after,
        (persist tools encoding files).Returns before (files.countP (·.render.isSome)) after ∧
        Persists tools encoding files before after) ∨
      ∃ earlier file later text failure after, files = earlier ++ file :: later ∧
        file.render = some text ∧ IsEncodingFailure tools encoding text failure ∧
        (persist tools encoding files).Fails before failure after ∧
        Persists tools encoding earlier before after := by
  induction files generalizing before with
  | nil => exact .inl ⟨before, returns_pure.mpr ⟨rfl, rfl⟩, .nil encoding rfl rfl⟩
  | cons file files ih =>
    rw [List.map_cons, List.nodup_cons] at hapart
    rw [List.forall_mem_cons] at hfiles
    rcases persistFile_cases encoding tree hfiles.1 with
      ⟨hrender, middle, hreturns, hdisk, hchanges⟩ |
      ⟨text, found, bytes, middle, hrender, hfound, hbytes, hreturns, hdisk, hchanges⟩ |
      ⟨text, failure, after, hrender, hfailure, hfails, hdisk, hchanges⟩
    · have hcount : (file :: files).countP (·.render.isSome) =
          files.countP (·.render.isSome) := by
        rw [List.countP_cons_of_neg]
        simp [hrender]
      rcases ih (hdisk ▸ tree) hapart.2 (hdisk ▸ hfiles.2) with
        ⟨after, hrest, hpersists⟩ |
        ⟨earlier, stopped, later, text, failure, after, rfl, htext, hfailure, hfails, hpersists⟩
      · refine .inl ⟨after, ?_, hpersists.skip hrender hdisk hchanges⟩
        exact returns_persist_cons.mpr ⟨false, middle, _, hreturns, hrest, hcount⟩
      · refine .inr ⟨file :: earlier, stopped, later, text, failure, after, rfl, htext, hfailure,
          ?_, hpersists.skip hrender hdisk hchanges⟩
        exact fails_persist_cons.mpr (.inr ⟨_, middle, hreturns, hfails⟩)
    · have hcount : (file :: files).countP (·.render.isSome) =
          files.countP (·.render.isSome) + 1 := by
        rw [List.countP_cons_of_pos]
        simp [hrender]
      have hothers : ∀ other ∈ files, other.path.names ≠ file.path.names :=
        fun other hother heq => hapart.1 (heq ▸ List.mem_map_of_mem hother)
      have tree' : middle.disk.IsTree := hdisk ▸ hfiles.1.isTree_set tree bytes
      have hfiles' : ∀ other ∈ files, middle.disk.NamesFile other.path := by
        intro other hother
        rw [hdisk]
        exact (hfiles.2 other hother).set (hothers other hother) bytes
      rcases ih tree' hapart.2 hfiles' with
        ⟨after, hrest, hpersists⟩ |
        ⟨earlier, stopped, later, text', failure, after, rfl, htext, hfailure, hfails, hpersists⟩
      · refine .inl ⟨after, ?_, hpersists.cons hfiles.1.ne_nil hothers hrender hfound hbytes
          hdisk hchanges⟩
        exact returns_persist_cons.mpr ⟨true, middle, _, hreturns, hrest, hcount⟩
      · refine .inr ⟨file :: earlier, stopped, later, text', failure, after, rfl, htext, hfailure,
          ?_, hpersists.cons hfiles.1.ne_nil (fun other hother => ?_) hrender hfound hbytes hdisk
            hchanges⟩
        · exact fails_persist_cons.mpr (.inr ⟨_, middle, hreturns, hfails⟩)
        · exact hothers other (List.mem_append_left _ hother)
    · refine .inr ⟨[], file, files, text, failure, after, rfl, hrender, hfailure, ?_, ?_⟩
      · exact fails_persist_cons.mpr (.inl hfails)
      · exact .nil encoding hdisk hchanges

/-- Persisting records of distinct regular files. If it returns, all renderings have been
written, and their number is returned. If it fails, then at a rendering that cannot be encoded;
the renderings of the records before it have been written, and its own file is as it was. -/
theorem persists_of_persist (encoding : Text) (tree : before.disk.IsTree)
    (hpaths : (files.map (·.path)).Nodup)
    (hfiles : ∀ file ∈ files, before.disk.NamesFile file.path) :
    (∀ count after, (persist tools encoding files).Returns before count after →
      count = files.countP (·.render.isSome) ∧ Persists tools encoding files before after) ∧
    ∀ failure after, (persist tools encoding files).Fails before failure after →
      ∃ earlier file later text, files = earlier ++ file :: later ∧ file.render = some text ∧
        IsEncodingFailure tools encoding text failure ∧ Persists tools encoding earlier before after ∧
        after.disk.get? file.path.names = before.disk.get? file.path.names := by
  have hapart : (files.map (·.path.names)).Nodup := by
    rw [List.Nodup, List.pairwise_map] at hpaths ⊢
    refine hpaths.imp_of_mem fun {a b} ha hb hne heq => hne ?_
    exact (hfiles a ha).eq_of_names (hfiles b hb) heq
  rcases persist_cases tools encoding tree hapart hfiles with
    ⟨last, hreturns, hpersists⟩ |
    ⟨earlier, file, later, text, fault, last, rfl, htext, hfault, hfails, hpersists⟩
  · refine ⟨fun count after h => ?_, fun failure after h => ?_⟩
    · obtain ⟨hcount, rfl⟩ := Prod.mk.inj (h.symm.trans hreturns)
      exact ⟨Except.ok.inj hcount, hpersists⟩
    · cases h.symm.trans hreturns
  · refine ⟨fun count after h => ?_, fun failure after h => ?_⟩
    · cases h.symm.trans hfails
    · obtain ⟨hfailure, rfl⟩ := Prod.mk.inj (h.symm.trans hfails)
      rw [Except.error.inj hfailure]
      refine ⟨earlier, file, later, text, rfl, htext, hfault, hpersists, ?_⟩
      refine hpersists.kept _ fun other hother _ heq => ?_
      rw [List.map_append, List.map_cons, List.nodup_append] at hapart
      exact hapart.2.2 _ (List.mem_map_of_mem hother) _ List.mem_cons_self heq

/-- A project with two class files, one of which is not in ASCII, and a text without tags. -/
def accentProject : Workspace where
  root := ⟨[], []⟩
  disk.entries := [(["A.php".toList], .file [60, 63]), (["B.php".toList], .file [98]),
    (["C.php".toList], .file [60, 63, 233])]

/-- The records of the project. -/
def accentFiles : List SourceFile :=
  [.ofPath ⟨[], ["A.php".toList]⟩ "<?".toList, .ofPath ⟨[], ["B.php".toList]⟩ "b".toList,
    .ofPath ⟨[], ["C.php".toList]⟩ "<?é".toList]

theorem persists_of_persist_accent :
    accentProject.disk.IsTree ∧ (accentFiles.map (·.path)).Nodup ∧
      (∀ file ∈ accentFiles, accentProject.disk.NamesFile file.path) ∧
      (∃ after, (persist .standard "latin-1".toList accentFiles).Returns accentProject 2 after ∧
        Persists .standard "latin-1".toList accentFiles accentProject after) ∧
      ∃ failure after,
        (persist .standard "ascii".toList accentFiles).Fails accentProject failure after ∧
        ∃ earlier file later text, accentFiles = earlier ++ file :: later ∧
          file.render = some text ∧ IsEncodingFailure .standard "ascii".toList text failure ∧
          Persists .standard "ascii".toList earlier accentProject after ∧
          after.disk.get? file.path.names = accentProject.disk.get? file.path.names := by
  have tree : accentProject.disk.IsTree := by decide
  have hpaths : (accentFiles.map (·.path)).Nodup := by decide
  have hfiles : ∀ file ∈ accentFiles, accentProject.disk.NamesFile file.path := by
    simp only [accentFiles, List.forall_mem_cons]
    exact ⟨⟨rfl, _, rfl⟩, ⟨rfl, _, rfl⟩, ⟨rfl, _, rfl⟩, by simp⟩
  have hreturns : (persist .standard "latin-1".toList accentFiles).Returns accentProject 2
      ((persist .standard "latin-1".toList accentFiles).outcome accentProject).2 :=
    returns_of_toOption (by decide +kernel)
  refine ⟨tree, hpaths, hfiles, ⟨_, hreturns, ?_⟩, ?_⟩
  · exact ((persists_of_persist _ tree hpaths hfiles).1 _ _ hreturns).2
  · rcases returns_or_fails (persist .standard "ascii".toList accentFiles) accentProject with
      ⟨count, after, h⟩ | ⟨failure, after, h⟩
    · have hnone :
          ((persist .standard "ascii".toList accentFiles).outcome accentProject).1.toOption =
            none := by decide +kernel
      rw [h] at hnone
      cases hnone
    · exact ⟨failure, after, h, (persists_of_persist _ tree hpaths hfiles).2 _ _ h⟩

end Job

end Namespacer
