import Namespacer.Proofs.ImportLaws

/-!
# Names that are taken for the file itself

A name is not imported if it is the type name of the file or stands for the qualified name of
the file. The type name is the stem of the path for every file, so also for a template, which
declares no type: a template `Widget.phtml` does not import the class `Widget` that it uses.

* `Text.lower_append_separator`: the lower case of a qualified name is taken segment by segment.
* `Imports.lower_eq_of_target`: bare names that stand for the same are the same, letter case
  aside.
* `Imports.exists_import_iff`: a bare name of the project is imported exactly if it is not taken
  for the file, or if it is also written out.
* `Imports.not_forall_exists_import`: a template that lacks an import.
-/

namespace Namespacer

/-! ## Lower case of qualified names -/

namespace Text

theorem leadsToCased_append_separator (u v : Text) :
    leadsToCased (u ++ namespaceSeparator :: v) = leadsToCased u := by
  have hseparator : isCaseIgnorable namespaceSeparator = false ∧
      isCased namespaceSeparator = false := by
    decide
  rw [leadsToCased, leadsToCased, List.dropWhile_append]
  cases hrest : u.dropWhile isCaseIgnorable with
  | nil => simp [hseparator]
  | cons c rest => simp

/-- What stands behind a separator does not change the lower case of what stands before it. -/
theorem lowerFrom_append_separator (before u v : Text) :
    lowerFrom before (u ++ namespaceSeparator :: v) =
      lowerFrom before u ++ lowerFrom (u.reverse ++ before) (namespaceSeparator :: v) := by
  induction u generalizing before with
  | nil => rfl
  | cons c u ih =>
    rw [List.cons_append, lowerFrom, lowerFrom, ih, lowerBetween, lowerBetween,
      leadsToCased_append_separator, List.reverse_cons, List.append_assoc, List.append_assoc]
    rfl

/-- Nor does what stands before a separator change the lower case of what stands behind it. -/
theorem lowerFrom_behind_separator (before u v : Text) :
    lowerFrom (before ++ namespaceSeparator :: u) v = lowerFrom before v := by
  induction v generalizing before with
  | nil => rfl
  | cons c v ih =>
    rw [lowerFrom, lowerFrom, ← List.cons_append, ih, lowerBetween, lowerBetween,
      leadsToCased_append_separator]

/-- The lower case of a qualified name is taken segment by segment. -/
theorem lower_append_separator (u v : Text) :
    lower (u ++ namespaceSeparator :: v) = lower u ++ namespaceSeparator :: lower v := by
  have hseparator : lowerBetween u.reverse namespaceSeparator v = [namespaceSeparator] := rfl
  have hbehind : lowerFrom (namespaceSeparator :: u.reverse) v = lower v :=
    lowerFrom_behind_separator [] u.reverse v
  rw [lower, lowerFrom_append_separator, List.append_nil, lowerFrom, hseparator, hbehind]
  rfl

end Text

/-- Qualified names that are the same, letter case aside, have the same last segments. -/
theorem lower_eq_of_append_separator {space space' name name' : Text}
    (hname : isSeparated name = false) (hname' : isSeparated name' = false)
    (h : Text.lower (space ++ namespaceSeparator :: name) =
      Text.lower (space' ++ namespaceSeparator :: name')) :
    Text.lower name = Text.lower name' := by
  rw [Text.lower_append_separator, Text.lower_append_separator] at h
  have hlast := congrArg lastSegment h
  rwa [lastSegment_append ((Text.isSeparated_lower name).trans hname),
    lastSegment_append ((Text.isSeparated_lower name').trans hname')] at hlast

namespace Imports

/-- Bare names whose targets are the same, letter case aside, are the same, if one of them is
known. -/
theorem lower_eq_of_target {files : List SourceFile} {name other qualified : Text}
    (hname : isSeparated name = false) (hother : isSeparated other = false)
    (hknown : (SymbolIndex.build files).1.lookup? name = some qualified)
    (h : Text.lower (target (SymbolIndex.build files).1 other) = Text.lower qualified) :
    Text.lower other = Text.lower name := by
  obtain ⟨file, -, space, -, rfl, hlower⟩ := SymbolIndex.exists_file_of_lookup? hknown
  have hfile : isSeparated file.typeName = false := (Text.isSeparated_congr hlower).trans hname
  rcases target_cases files other with htarget | ⟨file', -, space', -, htarget, hlower'⟩
  · -- An unknown bare name has no separator, the qualified name has one.
    rw [htarget] at h
    have hseparated : isSeparated (space ++ namespaceSeparator :: file.typeName) = true := by
      simp [isSeparated]
    rw [← Text.isSeparated_congr h, hother] at hseparated
    cases hseparated
  · rw [htarget] at h
    have hfile' : isSeparated file'.typeName = false :=
      (Text.isSeparated_congr hlower').trans hother
    rw [← hlower', ← hlower]
    exact lower_eq_of_append_separator hfile' hfile h

/-! ## Classes that a file uses -/

/-- Whether a bare name that stands for a qualified one is taken for the file itself. -/
def isTakenForFile (file : SourceFile) (name qualified : Text) : Bool :=
  sameName name file.typeName || sameName qualified file.qualifiedName

/-- The target of a bare name that the index knows is what it knows. -/
theorem target_of_lookup? {files : List SourceFile} {name qualified : Text}
    (hname : isSeparated name = false)
    (hknown : (SymbolIndex.build files).1.lookup? name = some qualified) :
    target (SymbolIndex.build files).1 name = qualified := by
  rw [target_eq_standsFor, standsFor, if_neg (by simp [hname]), hknown, Option.getD_some]

/-- A bare name of a class of the project, neither imported already nor declared in the file, is
imported exactly if it is not taken for the file itself, or if the class is also written out by
a name that is needed. Whether the file is a template makes no difference. -/
theorem exists_import_iff (files : List SourceFile) (file : SourceFile)
    (candidates : List Candidate) {name qualified : Text}
    (hname : name ∈ Candidate.namesAll candidates) (hbare : isSeparated name = false)
    (hknown : (SymbolIndex.build files).1.lookup? name = some qualified)
    (himported : isImported name file.contents = false)
    (hdeclared : isDeclared name file.contents = false) :
    (∃ a ∈ resolveFile file candidates (SymbolIndex.build files).1,
        sameName a qualified = true) ↔
      isTakenForFile file name qualified = false ∨
        ∃ other ∈ Candidate.namesAll candidates, isSeparated other = true ∧
          isNeeded file (SymbolIndex.build files).1 other = true ∧
            sameName other qualified = true := by
  constructor
  · rintro ⟨a, ha, hsame⟩
    obtain ⟨other, hother, hneeded, rfl⟩ := mem_resolveFile ha
    cases hseparated : isSeparated other with
    | true =>
      have htarget : target (SymbolIndex.build files).1 other = other := by
        rw [target, if_pos hseparated]
      rw [htarget] at hsame
      exact .inr ⟨other, hother, hseparated, hneeded, hsame⟩
    | false =>
      -- Another bare name is the same, letter case aside, so neither is taken for the file.
      have hlower := beq_iff_eq.mp hsame
      have hnames := lower_eq_of_target hbare hseparated hknown hlower
      simp only [isNeeded, Bool.and_eq_true, Bool.not_eq_true'] at hneeded
      obtain ⟨⟨⟨hself, -⟩, -⟩, hfile⟩ := hneeded
      rw [sameName, hnames] at hself
      rw [sameName, hlower] at hfile
      exact .inl (Bool.or_eq_false_iff.mpr ⟨hself, hfile⟩)
  · rintro (htaken | ⟨other, hother, hseparated, hneeded, hsame⟩)
    · obtain ⟨hself, hfile⟩ := Bool.or_eq_false_iff.mp htaken
      have hneeded : isNeeded file (SymbolIndex.build files).1 name = true := by
        rw [isNeeded, target_of_lookup? hbare hknown, hself, himported, hdeclared, hfile]
        rfl
      obtain ⟨a, ha, hlower⟩ := exists_mem_resolveFile hname hneeded
      rw [target_of_lookup? hbare hknown] at hlower
      exact ⟨a, ha, beq_iff_eq.mpr hlower⟩
    · obtain ⟨a, ha, hlower⟩ := exists_mem_resolveFile hother hneeded
      rw [target, if_pos hseparated, beq_iff_eq.mp hsame] at hlower
      exact ⟨a, ha, beq_iff_eq.mpr hlower⟩

/-- A class of a project. -/
def widgetClass : SourceFile where
  path := ⟨[], ["Lib".toList, "Widget.php".toList]⟩
  typeName := "Widget".toList
  contents := "<?php class Widget {}".toList
  namespaceName := some "App\\Lib".toList

/-- A template that uses the class and is named like it. -/
def widgetPage : SourceFile where
  path := ⟨[], ["Widget.phtml".toList]⟩
  typeName := "Widget".toList
  contents := "<?php new Widget;".toList
  namespaceName := some "App".toList

/-- The page imports the class if it also writes its name out. -/
theorem exists_import_widgetPage :
    let candidates : List Candidate := [.name "widget".toList, .name "App\\LIB\\Widget".toList]
    let index := (SymbolIndex.build [widgetClass, widgetPage]).1
    "widget".toList ∈ Candidate.namesAll candidates ∧ isSeparated "widget".toList = false ∧
      index.lookup? "widget".toList = some "App\\Lib\\Widget".toList ∧
      isImported "widget".toList widgetPage.contents = false ∧
      isDeclared "widget".toList widgetPage.contents = false ∧
      ∃ a ∈ resolveFile widgetPage candidates index,
        sameName a "App\\Lib\\Widget".toList = true := by
  intro candidates index
  have hname : "widget".toList ∈ Candidate.namesAll candidates := by decide
  have hknown : index.lookup? "widget".toList = some "App\\Lib\\Widget".toList := by decide
  have hwritten : "App\\LIB\\Widget".toList ∈ Candidate.namesAll candidates := by decide
  refine ⟨hname, by decide, hknown, by decide, by decide, ?_⟩
  refine (exists_import_iff [widgetClass, widgetPage] widgetPage candidates hname (by decide)
    hknown (by decide) (by decide)).mpr (.inr ⟨_, hwritten, ?_⟩)
  exact ⟨by decide, by decide, by decide⟩

/-- Not every template imports the classes that it uses: a class that is named like the template
is taken for it. -/
theorem not_forall_exists_import :
    ¬ ∀ (files : List SourceFile) (file : SourceFile) (candidates : List Candidate)
      (name qualified : Text), file.isTemplate = true → name ∈ Candidate.namesAll candidates →
        isSeparated name = false →
          (SymbolIndex.build files).1.lookup? name = some qualified →
            isImported name file.contents = false → isDeclared name file.contents = false →
              ∃ a ∈ resolveFile file candidates (SymbolIndex.build files).1,
                sameName a qualified = true := by
  intro h
  obtain ⟨a, ha, -⟩ := h [widgetClass, widgetPage] widgetPage [.name "Widget".toList]
    "Widget".toList "App\\Lib\\Widget".toList (by decide) (by decide) (by decide) (by decide)
    (by decide) (by decide)
  have hnone : resolveFile widgetPage [.name "Widget".toList]
      (SymbolIndex.build [widgetClass, widgetPage]).1 = [] := by
    decide
  rw [hnone] at ha
  cases ha

end Imports

end Namespacer
