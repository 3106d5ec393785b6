import Namespacer.Imports
import Namespacer.Proofs.AsciiCase

/-!
# Where imports come from

An import set is computed in three steps: candidates are reduced to their names,
each name that is needed is sent to its target, and targets that differ in letter
case only are kept once.

* `SymbolIndex.exists_file_of_lookup?`: what a built index knows under a name is
  the qualified name of a file whose type has that name up to letter case.
* `Imports.target_cases`: the target of a name is the name itself or such a
  qualified name.
* `Imports.mem_resolveFile`, `Imports.exists_mem_resolveFile`: an import is the
  target of a needed name, and the target of a needed name is imported in some
  letter case.
-/

namespace Namespacer

/-! ## The index -/

namespace SymbolIndex

/-- A registered symbol was known before or belongs to a file with a namespace
that is not a template. -/
theorem mem_register {files : List SourceFile} {symbols : List (Text × Text)} {name qualified : Text}
    (h : (name, qualified) ∈ (register files symbols).1) :
    (name, qualified) ∈ symbols ∨ ∃ file ∈ files, file.isTemplate = false ∧
      file.properNamespace?.isSome = true ∧ name = file.typeName ∧
        qualified = file.qualifiedName := by
  induction files generalizing symbols with
  | nil => exact .inl h
  | cons file files ih =>
    have hrest : (name, qualified) ∈ (register files symbols).1 →
        (name, qualified) ∈ symbols ∨ ∃ f ∈ file :: files, f.isTemplate = false ∧
          f.properNamespace?.isSome = true ∧ name = f.typeName ∧
            qualified = f.qualifiedName := by
      intro h
      rcases ih h with h | ⟨f, hf, hfile⟩
      · exact .inl h
      · exact .inr ⟨f, List.mem_cons_of_mem _ hf, hfile⟩
    rw [register] at h
    split at h
    · exact hrest h
    · rename_i hkept
      simp only [Bool.or_eq_true, not_or, Bool.not_eq_true, Option.isNone_eq_false_iff] at hkept
      split at h
      · exact hrest h
      · rcases ih h with h | ⟨f, hf, hfile⟩
        · rcases List.mem_append.mp h with h | h
          · exact .inl h
          · simp only [List.mem_singleton, Prod.mk.injEq] at h
            exact .inr ⟨file, List.mem_cons_self, hkept.1, hkept.2, h⟩
        · exact .inr ⟨f, List.mem_cons_of_mem _ hf, hfile⟩

/-- A name that an index answers is the name of one of its symbols up to letter
case. -/
theorem exists_mem_of_lookup? {index : SymbolIndex} {name qualified : Text}
    (h : index.lookup? name = some qualified) :
    ∃ other, (other, qualified) ∈ index.symbols ∧ Text.lower other = Text.lower name := by
  rw [lookup?, Option.orElse_eq_orElse, Option.orElse_eq_or, Option.or_eq_some_iff] at h
  rcases h with h | ⟨-, h⟩
  · rw [Option.filter_eq_some_iff] at h
    obtain ⟨before, after, hsymbols, -⟩ := List.lookup_eq_some_iff.mp h.1
    exact ⟨name, by simp [hsymbols], rfl⟩
  · rw [lookupFolded?, Option.map_eq_some_iff] at h
    obtain ⟨⟨other, found⟩, hfind, rfl⟩ := h
    have hlower := List.find?_some hfind
    exact ⟨other, List.mem_of_find?_eq_some hfind, beq_iff_eq.mp hlower⟩

/-- What a built index knows under a name is the qualified name of one of its
files, whose type has that name up to letter case. -/
theorem exists_file_of_lookup? {files : List SourceFile} {name qualified : Text}
    (h : (build files).1.lookup? name = some qualified) :
    ∃ file ∈ files, ∃ space, file.properNamespace? = some space ∧
      qualified = space ++ namespaceSeparator :: file.typeName ∧
        Text.lower file.typeName = Text.lower name := by
  obtain ⟨other, hmem, hlower⟩ := exists_mem_of_lookup? h
  rcases mem_register hmem with hmem | ⟨file, hfile, -, hspace, rfl, rfl⟩
  · simp at hmem
  · obtain ⟨space, hspace⟩ := Option.isSome_iff_exists.mp hspace
    refine ⟨file, hfile, space, hspace, ?_, hlower⟩
    rw [SourceFile.qualifiedName, hspace]

end SymbolIndex

/-! ## Import sets -/

namespace Imports

theorem mem_dedupe {name : Text} {seen names : List Text} :
    name ∈ dedupe seen names ↔ name ∈ names ∧ name ∉ seen := by
  induction names generalizing seen with
  | nil => simp [dedupe]
  | cons first names ih =>
    rw [dedupe]
    split
    · rename_i hseen
      rw [ih, List.mem_cons]
      constructor
      · rintro ⟨h, hnot⟩
        exact ⟨.inr h, hnot⟩
      · rintro ⟨rfl | h, hnot⟩
        · exact absurd (List.contains_iff_mem.mp hseen) hnot
        · exact ⟨h, hnot⟩
    · rename_i hseen
      rw [List.mem_cons, ih, List.mem_cons, List.mem_cons]
      rw [List.contains_iff_mem] at hseen
      by_cases h : name = first
      · subst h
        simp [hseen]
      · simp [h]

theorem mem_dedupeFolded {name : Text} {seen names : List Text}
    (h : name ∈ dedupeFolded seen names) : name ∈ names := by
  induction names generalizing seen with
  | nil => simp [dedupeFolded] at h
  | cons first names ih =>
    rw [dedupeFolded] at h
    split at h
    · exact List.mem_cons_of_mem _ (ih h)
    · rcases List.mem_cons.mp h with rfl | h
      · exact List.mem_cons_self
      · exact List.mem_cons_of_mem _ (ih h)

/-- Every name of a list is kept in some letter case, unless it was seen. -/
theorem exists_mem_dedupeFolded {name : Text} {seen names : List Text} (h : name ∈ names)
    (hseen : Text.lower name ∉ seen) :
    ∃ kept ∈ dedupeFolded seen names, Text.lower kept = Text.lower name := by
  induction names generalizing seen with
  | nil => simp at h
  | cons first names ih =>
    rw [dedupeFolded]
    by_cases hfirst : Text.lower name = Text.lower first
    · rw [if_neg (by simpa [← hfirst] using hseen)]
      exact ⟨first, List.mem_cons_self, hfirst.symm⟩
    · have hname : name ∈ names := by
        rcases List.mem_cons.mp h with rfl | h
        · exact absurd rfl hfirst
        · exact h
      split
      · exact ih hname hseen
      · obtain ⟨kept, hkept, hlower⟩ := @ih (Text.lower first :: seen) hname
          (by simp [hfirst, hseen])
        exact ⟨kept, List.mem_cons_of_mem _ hkept, hlower⟩

/-- The target of a name is the name itself, or the qualified name of a file whose
type has the name up to letter case. -/
theorem target_cases (files : List SourceFile) (name : Text) :
    target (SymbolIndex.build files).1 name = name ∨
      ∃ file ∈ files, ∃ space, file.properNamespace? = some space ∧
        target (SymbolIndex.build files).1 name = space ++ namespaceSeparator :: file.typeName ∧
          Text.lower file.typeName = Text.lower name := by
  unfold target
  split
  · exact .inl rfl
  · cases hlookup : ((SymbolIndex.build files).1.lookup? name).filter (!·.isEmpty) with
    | none => exact .inl rfl
    | some qualified =>
      rw [Option.filter_eq_some_iff] at hlookup
      exact .inr (SymbolIndex.exists_file_of_lookup? hlookup.1)

variable {file : SourceFile} {candidates : List Candidate} {index : SymbolIndex}

theorem mem_resolve {qualified : Text} :
    qualified ∈ resolve candidates file index ↔
      ∃ name ∈ Candidate.namesAll candidates, isNeeded file index name = true ∧
        target index name = qualified := by
  simp only [resolve, List.mem_map, List.mem_filter, mem_dedupe, List.not_mem_nil,
    not_false_eq_true, and_true, and_assoc]

/-- Every import is the target of a name that is needed. -/
theorem mem_resolveFile {qualified : Text} (h : qualified ∈ resolveFile file candidates index) :
    ∃ name ∈ Candidate.namesAll candidates, isNeeded file index name = true ∧
      target index name = qualified :=
  mem_resolve.mp (mem_dedupeFolded h)

/-- The target of a name that is needed is imported in some letter case. -/
theorem exists_mem_resolveFile {name : Text} (hname : name ∈ Candidate.namesAll candidates)
    (hneeded : isNeeded file index name = true) :
    ∃ qualified ∈ resolveFile file candidates index,
      Text.lower qualified = Text.lower (target index name) :=
  exists_mem_dedupeFolded (mem_resolve.mpr ⟨name, hname, hneeded, rfl⟩) (by simp)

/-- Nothing is imported if no name is needed. -/
theorem resolveFile_eq_nil
    (h : ∀ name ∈ Candidate.namesAll candidates, isNeeded file index name = false) :
    resolveFile file candidates index = [] := by
  rw [List.eq_nil_iff_forall_not_mem]
  intro qualified hmem
  obtain ⟨name, hname, hneeded, -⟩ := mem_resolveFile hmem
  simp [h name hname] at hneeded

end Imports

end Namespacer
