import Namespacer.Proofs.StoredFiles
import Namespacer.StandardTools

/-!
# Findings that come in in any order

Imports are found file by file or by workers that are done in no particular order. The
findings of workers are entered into the files by path, one after another.

* `assignImports_eq_map`: among files at distinct paths, each ends up with the last
  finding for its path.
* `Job.resolveAsCompleted_eq_resolveInOrder`: whatever the order, the outcome is that of
  going through the files one by one.

Files are values here: a run that fails returns none, so that those it was given are what
is left.
-/

namespace Namespacer

variable {tools : Tools}

/-- The file with the imports that are found for it, and nothing else changed. -/
def SourceFile.analyzed (tools : Tools) (index : SymbolIndex) (file : SourceFile) : SourceFile :=
  { file with imports := analyzeFile tools file index }

/-! ## Entering findings -/

/-- One finding changes the file at its path and no other. -/
theorem files_updateLast {files : List SourceFile} (hpaths : (files.map (·.path)).Nodup)
    (path : Path) (change : SourceFile → SourceFile) :
    ((Registry.ofFiles files).updateLast path change).files =
      files.map fun file => if file.path = path then change file else file := by
  have hkeys : ((Registry.ofFiles files).map (·.1)).Nodup := by
    simpa [Registry.ofFiles, Function.comp_def] using hpaths
  rw [Registry.updateLast_eq_map hkeys, Registry.files, Registry.ofFiles, List.map_map,
    List.map_map]
  refine List.map_congr_left fun file _ => ?_
  simp only [Function.comp_apply]
  split <;> rfl

/-- Among files at distinct paths, each ends up with the last finding for its path. -/
theorem assignImports_eq_map {files : List SourceFile} (hpaths : (files.map (·.path)).Nodup)
    (found : List (Path × List Text)) :
    assignImports found files = files.map fun file =>
      { file with imports := (found.reverse.lookup file.path).getD file.imports } := by
  induction found generalizing files with
  | nil =>
    rw [assignImports]
    exact (List.map_id' files).symm
  | cons finding found ih =>
    obtain ⟨path, imports⟩ := finding
    rw [assignImports, files_updateLast hpaths]
    have hsame : ((files.map fun file =>
        if file.path = path then { file with imports } else file).map (·.path)) =
          files.map (·.path) := by
      rw [List.map_map]
      refine List.map_congr_left fun file _ => ?_
      simp only [Function.comp_apply]
      split <;> rfl
    rw [ih (by rw [hsame]; exact hpaths), List.map_map]
    refine List.map_congr_left fun file _ => ?_
    simp only [Function.comp_apply, List.reverse_cons, List.lookup_append]
    by_cases hpath : file.path = path
    · rw [if_pos hpath, hpath]
      cases found.reverse.lookup path with
      | none => simp
      | some later => simp
    · rw [if_neg hpath, List.lookup_cons, beq_eq_false_iff_ne.mpr hpath]
      simp

/-- The findings of workers, in whatever order, reach their own files. -/
theorem assignImports_of_perm {files : List SourceFile} {index : SymbolIndex}
    {found : List (Path × List Text)} (hpaths : (files.map (·.path)).Nodup)
    (hfound : found.Perm (files.map fun file => (file.path, analyzeFile tools file index))) :
    assignImports found files = files.map (SourceFile.analyzed tools index) := by
  have hreverse := found.reverse_perm.trans hfound
  have hkeys : (found.reverse.map (·.1)).Nodup := by
    rw [(hreverse.map (·.1)).nodup_iff]
    simpa [Function.comp_def] using hpaths
  rw [assignImports_eq_map hpaths]
  refine List.map_congr_left fun file hfile => ?_
  have hmem : (file.path, analyzeFile tools file index) ∈ found.reverse :=
    hreverse.mem_iff.mpr (List.mem_map.mpr ⟨file, hfile, rfl⟩)
  rw [lookup_of_mem hkeys hmem]
  rfl

/-! ## One by one -/

namespace Job

theorem returns_logAll (events : List LogEvent) (before : Workspace) :
    ∃ after, (logAll events).Returns before () after := by
  induction events generalizing before with
  | nil => exact ⟨before, returns_pure.mpr ⟨rfl, rfl⟩⟩
  | cons event events ih =>
    obtain ⟨after, hafter⟩ := ih { before with notices := before.notices ++ [.logged event] }
    exact ⟨after, returns_bind.mpr ⟨(), _, rfl, hafter⟩⟩

theorem returns_resolveFile (index : SymbolIndex) (file : SourceFile) (before : Workspace) :
    ∃ after, (resolveFile tools index file).Returns before (file.analyzed tools index) after := by
  obtain ⟨after, hafter⟩ := returns_logAll (LogEvent.reviews (Tree.ofText tools file.contents)) before
  exact ⟨after, returns_bind.mpr ⟨(), after, hafter, returns_pure.mpr ⟨rfl, rfl⟩⟩⟩

theorem returns_resolveEach (index : SymbolIndex) (files : List SourceFile) (before : Workspace) :
    ∃ after, (resolveEach tools index files).Returns before
      (files.map (SourceFile.analyzed tools index))
      after := by
  induction files generalizing before with
  | nil => exact ⟨before, returns_pure.mpr ⟨rfl, rfl⟩⟩
  | cons file files ih =>
    obtain ⟨middle, hfirst⟩ := returns_resolveFile index file before
    obtain ⟨after, hrest⟩ := ih middle
    refine ⟨after, returns_bind.mpr ⟨_, middle, hfirst, ?_⟩⟩
    exact returns_bind.mpr ⟨_, after, hrest, returns_pure.mpr ⟨rfl, rfl⟩⟩

/-! ## Both ways -/

theorem outcome_of_isStale {next : Unit → Job (List SourceFile)} {index : SymbolIndex}
    {files : List SourceFile} (hstale : index.isStale files = true) (before : Workspace) :
    (ensureFresh index files >>= next).outcome before = (.error .staleIndex, before) := by
  rw [outcome_bind, ensureFresh, if_pos hstale]
  rfl

theorem returns_ensureFresh {index : SymbolIndex} {files : List SourceFile}
    (hfresh : index.isStale files = false) (before : Workspace) :
    (ensureFresh index files).Returns before () before := by
  rw [ensureFresh, if_neg (by simp [hfresh])]
  rfl

/-- Workers who are done in any order bring about what going through the files one by one
does: both fail on a stale index and leave everything as it was, or both return the files
with the same imports and nothing else changed. -/
theorem resolveAsCompleted_eq_resolveInOrder
    {arrange : List (Path × List Text) → List (Path × List Text)} {workers : Option Int}
    {files : List SourceFile} (hpaths : (files.map (·.path)).Nodup)
    (hworkers : ∀ count ∈ workers, 0 < count) (harrange : ∀ found, (arrange found).Perm found)
    (index : SymbolIndex) (before : Workspace) :
    index.isStale files = true ∧
        (resolveAsCompleted tools arrange workers files index).outcome before =
          (.error .staleIndex, before) ∧
        (resolveInOrder tools files index).outcome before = (.error .staleIndex, before) ∨
      index.isStale files = false ∧ ∃ after,
        (resolveAsCompleted tools arrange workers files index).Returns before
          (files.map (SourceFile.analyzed tools index)) before ∧
        (resolveInOrder tools files index).Returns before
          (files.map (SourceFile.analyzed tools index)) after := by
  cases hstale : index.isStale files with
  | true => exact .inl ⟨rfl, outcome_of_isStale hstale before, outcome_of_isStale hstale before⟩
  | false =>
    have hfresh := returns_ensureFresh hstale before
    obtain ⟨after, hafter⟩ := returns_resolveEach index files before
    refine .inr ⟨rfl, after, ?_, returns_bind.mpr ⟨(), before, hfresh, hafter⟩⟩
    refine returns_bind.mpr ⟨(), before, hfresh, ?_⟩
    by_cases hnone : files = []
    · simp [hnone]
    have hbusy : ¬ workers.any (· ≤ 0) = true := by
      cases workers with
      | none => simp
      | some count => simpa using hworkers count rfl
    rw [if_neg (by simpa using hnone), if_neg hbusy]
    exact returns_pure.mpr ⟨(assignImports_of_perm hpaths (harrange _)).symm, rfl⟩

/-- Two files whose findings come in in reverse, by a single worker. -/
theorem resolveAsCompleted_reversed_pair :
    let files := [SourceFile.ofPath (Path.ofText "a/Page.php") "<?php new Row;",
      SourceFile.ofPath (Path.ofText "a/Row.php") "<?php class Row {}"]
    let index := (SymbolIndex.build files).1
    let before : Workspace := { root := {} }
    (files.map (·.path)).Nodup ∧ (∀ count ∈ some (1 : Int), 0 < count) ∧
      index.isStale files = false ∧ ∃ after,
        (resolveAsCompleted .standard List.reverse (some 1) files index).Returns before
          (files.map (SourceFile.analyzed .standard index)) before ∧
        (resolveInOrder .standard files index).Returns before
          (files.map (SourceFile.analyzed .standard index)) after := by
  intro files index before
  have hpaths : (files.map (·.path)).Nodup := by decide
  have hworkers : ∀ count ∈ some (1 : Int), 0 < count := by simp
  have hfresh : index.isStale files = false := by decide
  refine ⟨hpaths, hworkers, hfresh, ?_⟩
  rcases resolveAsCompleted_eq_resolveInOrder hpaths hworkers List.reverse_perm index before with
    ⟨hstale, -⟩ | ⟨-, h⟩
  · exact absurd (hfresh.symm.trans hstale) Bool.false_ne_true
  · exact h

end Job

end Namespacer
