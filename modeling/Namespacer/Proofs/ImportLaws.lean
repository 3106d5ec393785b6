import Namespacer.Proofs.IndexFreshness

/-!
# Laws of import sets

An import set is computed from the names of its candidates in order. How the candidates are
grouped does not matter, more candidates add imports at the end, and a name that comes again in
another letter case adds nothing.

* `Candidate.regrouped_iff`: candidates are regrouped exactly if they have the same names.
* `Imports.isNeeded_congr`: whether a name is needed does not depend on its letter case.
* `Imports.resolveFile_append`: what the import set of more candidates looks like.
* `Imports.resolveFile_laws`: the laws together.
* `Imports.resolveFile_binds`: every import binds a candidate, and there is one for every
  candidate that needs it.
-/

namespace Namespacer

/-! ## Regrouping -/

namespace Candidate

/-- Whether a candidate is a single one without a name. -/
def isNameless : Candidate → Bool
  | nothing => true
  | name text => text.isEmpty
  | reference found => (found.getD []).isEmpty
  | group _ => false

/-- Lists of candidates that differ in their grouping, in candidates without a name, and in
whether a name comes with a reference. -/
inductive Regrouped : List Candidate → List Candidate → Prop
  | refl (candidates : List Candidate) : Regrouped candidates candidates
  | symm {first second : List Candidate} : Regrouped first second → Regrouped second first
  | trans {first second third : List Candidate} :
      Regrouped first second → Regrouped second third → Regrouped first third
  | append {first second more others : List Candidate} :
      Regrouped first second → Regrouped more others → Regrouped (first ++ more) (second ++ others)
  | group (candidates : List Candidate) : Regrouped [.group candidates] candidates
  | nameless {candidate : Candidate} : candidate.isNameless = true → Regrouped [candidate] []
  | reference (text : Text) : Regrouped [.reference (some text)] [.name text]

theorem namesAll_append (candidates more : List Candidate) :
    namesAll (candidates ++ more) = namesAll candidates ++ namesAll more := by
  induction candidates with
  | nil => simp [namesAll]
  | cons candidate candidates ih => simp [namesAll, ih]

theorem names_of_isNameless {candidate : Candidate} (h : candidate.isNameless = true) :
    names candidate = [] := by
  cases candidate with
  | nothing => simp [names]
  | name text => simpa [names, isNameless] using h
  | reference found =>
    cases found with
    | none => simp [names]
    | some text => simpa [names, isNameless] using h
  | group candidates => cases h

theorem Regrouped.namesAll_eq {first second : List Candidate} (h : Regrouped first second) :
    namesAll first = namesAll second := by
  induction h with
  | refl candidates => rfl
  | symm _ ih => exact ih.symm
  | trans _ _ ih ih' => exact ih.trans ih'
  | append _ _ ih ih' => rw [namesAll_append, namesAll_append, ih, ih']
  | group candidates => simp [namesAll, names]
  | nameless h => simp [namesAll, names_of_isNameless h]
  | reference text => simp [namesAll, names]

mutual

/-- A candidate can be replaced by its names. -/
theorem regrouped_names : ∀ candidate, Regrouped [candidate] ((names candidate).map .name)
  | .nothing => by
    rw [names]
    exact .nameless rfl
  | .name text => by
    rw [names]
    split
    · rename_i h
      exact .nameless h
    · exact .refl _
  | .reference none => by
    rw [names]
    exact .nameless rfl
  | .reference (some text) => by
    rw [names]
    split
    · rename_i h
      exact .nameless h
    · exact .reference text
  | .group candidates => by
    rw [names]
    exact .trans (.group candidates) (regrouped_namesAll candidates)

/-- Candidates can be replaced by their names. -/
theorem regrouped_namesAll : ∀ candidates, Regrouped candidates ((namesAll candidates).map .name)
  | [] => .refl []
  | candidate :: candidates => by
    rw [namesAll, List.map_append]
    exact .append (regrouped_names candidate) (regrouped_namesAll candidates)

end

/-- Candidates are regrouped exactly if they have the same names in the same order. -/
theorem regrouped_iff {first second : List Candidate} :
    Regrouped first second ↔ namesAll first = namesAll second := by
  refine ⟨Regrouped.namesAll_eq, fun h => (regrouped_namesAll first).trans ?_⟩
  rw [h]
  exact (regrouped_namesAll second).symm

end Candidate

/-! ## Letter case -/

theorem Text.mem_lowerFrom_of_dottedCapital {before text : Text} (h : dottedCapital ∈ text) :
    Char.ofNat 0x307 ∈ lowerFrom before text := by
  induction text generalizing before with
  | nil => cases h
  | cons c text ih =>
    rw [lowerFrom, List.mem_append]
    rcases List.mem_cons.mp h with rfl | h
    · refine .inl ?_
      rw [lowerBetween, if_neg (by decide), if_pos (by decide)]
      decide
    · exact .inr (ih h)

theorem Text.IsAscii.not_mem_dottedCapital {text : Text} (h : IsAscii text) :
    dottedCapital ∉ text :=
  fun hmem => absurd (h _ hmem) (by decide)

/-- A text that is ASCII in lower case has no dotted capital. -/
theorem Text.not_mem_dottedCapital_of_lower {a b : Text} (ha : IsAscii a) (h : lower b = lower a) :
    dottedCapital ∉ b := by
  intro hmem
  have hdot : Char.ofNat 0x307 ∈ lower a := h ▸ mem_lowerFrom_of_dottedCapital hmem
  rw [lower_of_ascii ha, List.mem_map] at hdot
  obtain ⟨c, hc, hlower⟩ := hdot
  have hlt := toNat_toLower_lt (ha c hc)
  rw [hlower] at hlt
  exact absurd hlt (by decide)

namespace Imports

open Pattern

/-- Whether a text imports a name does not depend on its letter case. -/
theorem isImported_congr {a b contents : Text} (ha : Text.dottedCapital ∉ a)
    (hb : Text.dottedCapital ∉ b) (h : Text.lower a = Text.lower b)
    (himported : isImported a contents = true) : isImported b contents = true := by
  have hfolded : ∀ {before covered after}, (folded a).Covers before covered after →
      (folded b).Covers before covered after := by
    intro before covered after hcovers
    rw [covers_folded] at hcovers ⊢
    exact Text.forall₂_sameFolded_of_lower ha hb h hcovers
  rw [isImported, occursIn_iff] at himported ⊢
  obtain ⟨skipped, covered, after, rfl, hcovers⟩ := himported
  refine ⟨skipped, covered, after, rfl, ?_⟩
  rcases hcovers with hcovers | hcovers
  · refine .inl ?_
    simp only [covers_all_cons] at hcovers ⊢
    obtain ⟨u, _, rfl, hstart, v, _, rfl, hspace, w, rest, rfl, hname, hend⟩ := hcovers
    exact ⟨u, _, rfl, hstart, v, _, rfl, hspace, w, rest, rfl, hfolded hname, hend⟩
  · refine .inr ?_
    simp only [covers_all_cons] at hcovers ⊢
    obtain ⟨u, _, rfl, hstart, v, _, rfl, hpath, w, _, rfl, hgap, x, _, rfl, has, y, _, rfl, hgap',
      z, rest, rfl, hname, hend⟩ := hcovers
    exact ⟨u, _, rfl, hstart, v, _, rfl, hpath, w, _, rfl, hgap, x, _, rfl, has, y, _, rfl, hgap',
      z, rest, rfl, hfolded hname, hend⟩

/-- Names that are the same up to letter case have targets that are. -/
theorem lower_target_of_lower (files : List SourceFile) {a b : Text}
    (h : Text.lower a = Text.lower b) :
    Text.lower (target (SymbolIndex.build files).1 a) =
      Text.lower (target (SymbolIndex.build files).1 b) := by
  cases hseparated : isSeparated a with
  | false => exact lower_target_congr files hseparated h
  | true =>
    rw [target, target, if_pos hseparated, if_pos (Text.isSeparated_congr h ▸ hseparated), h]

/-- Whether a file has to import a name does not depend on its letter case. -/
theorem isNeeded_congr (files : List SourceFile) {file : SourceFile} {a b : Text}
    (ha : Text.IsAscii a) (h : Text.lower b = Text.lower a)
    (hneeded : isNeeded file (SymbolIndex.build files).1 b = true) :
    isNeeded file (SymbolIndex.build files).1 a = true := by
  have hdotted := ha.not_mem_dottedCapital
  have hdotted' := Text.not_mem_dottedCapital_of_lower ha h
  simp only [isNeeded, Bool.and_eq_true, Bool.not_eq_true'] at hneeded ⊢
  obtain ⟨⟨⟨hself, himported⟩, hdeclared⟩, htarget⟩ := hneeded
  refine ⟨⟨⟨?_, ?_⟩, ?_⟩, ?_⟩
  · rwa [sameName, ← h]
  · rw [← Bool.not_eq_true] at himported ⊢
    exact fun hagain => himported (isImported_congr hdotted hdotted' h.symm hagain)
  · rw [← Bool.not_eq_true] at hdeclared ⊢
    exact fun hagain => hdeclared (isDeclared_congr hdotted hdotted' h.symm hagain)
  · rwa [sameName, ← lower_target_of_lower files h]

/-! ## More candidates -/

/-- More names are kept after those that are there. -/
theorem dedupe_append (seen names more : List Text) :
    ∃ rest, dedupe seen (names ++ more) = dedupe seen names ++ rest ∧
      ∀ name ∈ rest, name ∈ more := by
  induction names generalizing seen with
  | nil => exact ⟨dedupe seen more, rfl, fun name hname => (mem_dedupe.mp hname).1⟩
  | cons first names ih =>
    rw [List.cons_append, dedupe, dedupe]
    split
    · exact ih seen
    · obtain ⟨rest, hrest, hmore⟩ := ih (first :: seen)
      exact ⟨rest, by rw [hrest, List.cons_append], hmore⟩

/-- More names are kept after those that are there, unless they were there in some letter
case. -/
theorem dedupeFolded_append (seen names more : List Text) :
    ∃ known, (∀ name ∈ names, Text.lower name ∈ known) ∧ (∀ folded ∈ seen, folded ∈ known) ∧
      dedupeFolded seen (names ++ more) = dedupeFolded seen names ++ dedupeFolded known more := by
  induction names generalizing seen with
  | nil => exact ⟨seen, by simp, fun _ h => h, rfl⟩
  | cons first names ih =>
    rw [List.cons_append, dedupeFolded, dedupeFolded]
    split
    · rename_i hseen
      obtain ⟨known, hnames, hknown, heq⟩ := ih seen
      refine ⟨known, ?_, hknown, heq⟩
      rw [List.forall_mem_cons]
      exact ⟨hknown _ (List.contains_iff_mem.mp hseen), hnames⟩
    · obtain ⟨known, hnames, hknown, heq⟩ := ih (Text.lower first :: seen)
      rw [List.forall_mem_cons] at hknown
      refine ⟨known, ?_, hknown.2, by rw [heq, List.cons_append]⟩
      rw [List.forall_mem_cons]
      exact ⟨hknown.1, hnames⟩

theorem dedupeFolded_eq_nil {seen names : List Text} (h : ∀ name ∈ names, Text.lower name ∈ seen) :
    dedupeFolded seen names = [] := by
  induction names with
  | nil => rfl
  | cons first names ih =>
    rw [List.forall_mem_cons] at h
    rw [dedupeFolded, if_pos (List.contains_iff_mem.mpr h.1)]
    exact ih h.2

variable {file : SourceFile} {candidates more : List Candidate} {index : SymbolIndex}

/-- More candidates add the targets of their own names that are needed. -/
theorem resolve_append (file : SourceFile) (candidates more : List Candidate)
    (index : SymbolIndex) :
    ∃ rest, resolve (candidates ++ more) file index = resolve candidates file index ++ rest ∧
      ∀ qualified ∈ rest, ∃ name ∈ Candidate.namesAll more, isNeeded file index name = true ∧
        target index name = qualified := by
  obtain ⟨rest, hrest, hmore⟩ :=
    dedupe_append [] (Candidate.namesAll candidates) (Candidate.namesAll more)
  refine ⟨(rest.filter (isNeeded file index)).map (target index), ?_, ?_⟩
  · rw [resolve, resolve, Candidate.namesAll_append, hrest, List.filter_append, List.map_append]
  · intro qualified hqualified
    obtain ⟨name, hname, rfl⟩ := List.mem_map.mp hqualified
    obtain ⟨hname, hneeded⟩ := List.mem_filter.mp hname
    exact ⟨name, hmore name hname, hneeded, rfl⟩

/-- More candidates add imports after those that are there. -/
theorem resolveFile_append (file : SourceFile) (candidates more : List Candidate)
    (index : SymbolIndex) :
    resolveFile file candidates index <+: resolveFile file (candidates ++ more) index := by
  obtain ⟨rest, hrest, -⟩ := resolve_append file candidates more index
  obtain ⟨known, -, -, heq⟩ := dedupeFolded_append [] (resolve candidates file index) rest
  refine ⟨dedupeFolded known rest, ?_⟩
  rw [resolveFile, resolveFile, importSet, importSet, hrest, heq]

/-- Candidates whose names are there in some letter case add nothing. -/
theorem resolveFile_append_of_known (files : List SourceFile)
    (hascii : ∀ name ∈ Candidate.namesAll candidates, Text.IsAscii name)
    (hknown : ∀ name ∈ Candidate.namesAll more, ∃ other ∈ Candidate.namesAll candidates,
      sameName name other = true) :
    resolveFile file (candidates ++ more) (SymbolIndex.build files).1 =
      resolveFile file candidates (SymbolIndex.build files).1 := by
  obtain ⟨rest, hrest, hmore⟩ := resolve_append file candidates more (SymbolIndex.build files).1
  obtain ⟨known, hnames, -, heq⟩ :=
    dedupeFolded_append [] (resolve candidates file (SymbolIndex.build files).1) rest
  have hnothing : dedupeFolded known rest = [] := by
    refine dedupeFolded_eq_nil fun qualified hqualified => ?_
    obtain ⟨name, hname, hneeded, rfl⟩ := hmore qualified hqualified
    obtain ⟨other, hother, hsame⟩ := hknown name hname
    have hlower : Text.lower name = Text.lower other := beq_iff_eq.mp hsame
    -- The other spelling is needed as well, so that its target is there.
    have hneeded' := isNeeded_congr files (hascii other hother) hlower hneeded
    rw [lower_target_of_lower files hlower]
    exact hnames _ (mem_resolve.mpr ⟨other, hother, hneeded', rfl⟩)
  rw [resolveFile, resolveFile, importSet, importSet, hrest, heq, hnothing, List.append_nil]

/-! ## Import sets -/

/-- **Import sets depend on the sequence of names.** More candidates add imports at the end.
Regrouping, and candidates without a name, change nothing, nor do names that are there in some
letter case. No two imports are the same in whatever letter case, and none is the file itself. -/
theorem resolveFile_laws (files : List SourceFile) (file : SourceFile)
    (candidates : List Candidate)
    (hascii : ∀ name ∈ Candidate.namesAll candidates, Text.IsAscii name) :
    (∀ more, resolveFile file candidates (SymbolIndex.build files).1 <+:
        resolveFile file (candidates ++ more) (SymbolIndex.build files).1) ∧
      (∀ other, Candidate.Regrouped candidates other →
        resolveFile file other (SymbolIndex.build files).1 =
          resolveFile file candidates (SymbolIndex.build files).1) ∧
      (∀ more, (∀ name ∈ Candidate.namesAll more, ∃ known ∈ Candidate.namesAll candidates,
          sameName name known = true) →
        resolveFile file (candidates ++ more) (SymbolIndex.build files).1 =
          resolveFile file candidates (SymbolIndex.build files).1) ∧
      (resolveFile file candidates (SymbolIndex.build files).1).Pairwise
        (fun a b => sameName a b = false) ∧
      ∀ a ∈ resolveFile file candidates (SymbolIndex.build files).1,
        sameName a file.qualifiedName = false := by
  refine ⟨fun more => resolveFile_append file candidates more _, ?_,
    fun more => resolveFile_append_of_known files hascii, ?_, ?_⟩
  · intro other hregrouped
    rw [resolveFile, resolveFile, resolve, resolve, Candidate.regrouped_iff.mp hregrouped]
  · exact (pairwise_dedupeFolded [] _).1.imp fun hne => beq_eq_false_iff_ne.mpr hne
  · intro a ha
    obtain ⟨name, -, hneeded, rfl⟩ := mem_resolveFile ha
    simp only [isNeeded, Bool.and_eq_true, Bool.not_eq_true'] at hneeded
    exact hneeded.2

/-- A page that refers to a class of the project in two letter cases, to itself, and to a global
class: regrouped, with more candidates, and with a name that comes again. -/
theorem resolveFile_laws_page :
    let helper : SourceFile :=
      { path := ⟨[], ["Lib".toList, "Helper.php".toList]⟩, typeName := "Helper".toList,
        contents := [], namespaceName := some "Acme\\Lib".toList }
    let page : SourceFile :=
      { path := ⟨[], ["Home.php".toList]⟩, typeName := "Home".toList,
        contents := "<?php helper::run(new Home, new Clock);".toList,
        namespaceName := some "Acme".toList }
    let candidates : List Candidate := [.name "helper".toList, .name "Home".toList]
    let index := (SymbolIndex.build [helper, page]).1
    resolveFile page candidates index = ["Acme\\Lib\\Helper".toList] ∧
      resolveFile page candidates index <+:
        resolveFile page (candidates ++ [.name "Clock".toList]) index ∧
      resolveFile page [.group [.name "helper".toList, .nothing, .name "Home".toList]] index =
        resolveFile page candidates index ∧
      resolveFile page (candidates ++ [.name "HELPER".toList]) index =
        resolveFile page candidates index := by
  intro helper page candidates index
  have hascii : ∀ name ∈ Candidate.namesAll candidates, Text.IsAscii name := by
    simp [candidates, Candidate.namesAll, Candidate.names, Text.IsAscii]
  obtain ⟨happend, hregroup, hknown, -⟩ :=
    resolveFile_laws [helper, page] page candidates hascii
  refine ⟨by decide, happend _, hregroup _ (Candidate.regrouped_iff.mpr (by decide)), ?_⟩
  exact hknown [.name "HELPER".toList] (by decide)

/-! ## What imports stand for -/

/-- The name that a candidate stands for: itself if it is written with a separator or unknown,
else the qualified name that the index knows. -/
def standsFor (index : SymbolIndex) (name : Text) : Text :=
  if isSeparated name then name else (index.lookup? name).getD name

/-- No qualified name that a built index knows is empty. -/
theorem target_eq_standsFor (files : List SourceFile) (name : Text) :
    target (SymbolIndex.build files).1 name = standsFor (SymbolIndex.build files).1 name := by
  rw [target, standsFor]
  split
  · rfl
  · cases hlookup : (SymbolIndex.build files).1.lookup? name with
    | none => rfl
    | some qualified =>
      obtain ⟨file, -, space, -, rfl, -⟩ := SymbolIndex.exists_file_of_lookup? hlookup
      rw [Option.filter_some, if_pos (by simp)]

/-- A target has the last segment of its name and is the name or the qualified name of a file
that declares it. -/
theorem target_origin (files : List SourceFile) (name : Text) :
    sameName (lastSegment name) (lastSegment (target (SymbolIndex.build files).1 name)) = true ∧
      (target (SymbolIndex.build files).1 name = name ∨
        ∃ other ∈ files, other.declares name = true ∧
          target (SymbolIndex.build files).1 name = other.qualifiedName) := by
  cases hseparated : isSeparated name with
  | true =>
    have htarget : target (SymbolIndex.build files).1 name = name := by
      rw [target, if_pos hseparated]
    rw [htarget]
    exact ⟨beq_self_eq_true _, .inl rfl⟩
  | false =>
    constructor
    · rw [sameName, lastSegment_of_bare hseparated, beq_iff_eq]
      exact (lower_lastSegment_target files hseparated).symm
    · rw [target_eq_standsFor, standsFor, if_neg (by simp [hseparated]),
        SymbolIndex.lookup?_build_eq_find?]
      cases hfind : files.find? (·.declares name) with
      | none => exact .inl rfl
      | some other =>
        exact .inr ⟨other, List.mem_of_find?_eq_some hfind, List.find?_some hfind, rfl⟩

/-- At most one name of an import set is the same as another in some letter case. -/
theorem countP_sameName_le_one {names : List Text} (name : Text)
    (h : names.Pairwise fun a b => Text.lower a ≠ Text.lower b) :
    names.countP (sameName · name) ≤ 1 := by
  induction names with
  | nil => exact Nat.zero_le 1
  | cons first names ih =>
    rw [List.pairwise_cons] at h
    rw [List.countP_cons]
    split
    · rename_i hfirst
      have hnone : names.countP (sameName · name) = 0 := by
        rw [List.countP_eq_zero]
        intro other hother hsame
        exact h.1 other hother ((beq_iff_eq.mp hfirst).trans (beq_iff_eq.mp hsame).symm)
      rw [hnone]
    · exact ih h.2

/-- **Every import binds a name, and every name that needs an import has one.** An import has the
last segment of a candidate and is the candidate itself or the qualified name of a file that
declares it. A candidate that is not the type of the file, not imported, not declared and does not
stand for the file has exactly one import. -/
theorem resolveFile_binds (files : List SourceFile) (file : SourceFile)
    (candidates : List Candidate) :
    (∀ qualified ∈ resolveFile file candidates (SymbolIndex.build files).1,
        ∃ name ∈ Candidate.namesAll candidates,
          sameName (lastSegment name) (lastSegment qualified) = true ∧
            (qualified = name ∨ ∃ other ∈ files, other.isTemplate = false ∧
              other.declares name = true ∧ qualified = other.qualifiedName)) ∧
      ∀ name ∈ Candidate.namesAll candidates, sameName name file.typeName = false →
        isImported name file.contents = false → isDeclared name file.contents = false →
          sameName (standsFor (SymbolIndex.build files).1 name) file.qualifiedName = false →
            (resolveFile file candidates (SymbolIndex.build files).1).countP
              (sameName · (standsFor (SymbolIndex.build files).1 name)) = 1 := by
  constructor
  · intro qualified hqualified
    obtain ⟨name, hname, -, rfl⟩ := mem_resolveFile hqualified
    obtain ⟨hsegment, horigin⟩ := target_origin files name
    refine ⟨name, hname, hsegment, ?_⟩
    rcases horigin with horigin | ⟨other, hother, hdeclares, horigin⟩
    · exact .inl horigin
    · have htemplate : other.isTemplate = false := by
        simp only [SourceFile.declares, Bool.and_eq_true, Bool.not_eq_true'] at hdeclares
        exact hdeclares.1.1
      exact .inr ⟨other, hother, htemplate, hdeclares, horigin⟩
  · intro name hname hself himported hdeclared hfile
    have hneeded : isNeeded file (SymbolIndex.build files).1 name = true := by
      rw [isNeeded, target_eq_standsFor, hself, himported, hdeclared, hfile]
      rfl
    obtain ⟨qualified, hmem, hlower⟩ := exists_mem_resolveFile hname hneeded
    rw [target_eq_standsFor] at hlower
    refine Nat.le_antisymm (countP_sameName_le_one _ (pairwise_dedupeFolded [] _).1) ?_
    exact List.countP_pos_iff.mpr ⟨qualified, hmem, beq_iff_eq.mpr hlower⟩

/-- A page whose candidates reach one class of the project by two routes: by its bare name in
another letter case, and written out. -/
theorem resolveFile_binds_page :
    let helper : SourceFile :=
      { path := ⟨[], ["Lib".toList, "Helper.php".toList]⟩, typeName := "Helper".toList,
        contents := [], namespaceName := some "Acme\\Lib".toList }
    let page : SourceFile :=
      { path := ⟨[], ["Home.php".toList]⟩, typeName := "Home".toList,
        contents := "<?php helper::run();".toList }
    let candidates : List Candidate :=
      [.name "helper".toList, .name "ACME\\Lib\\Helper".toList]
    let index := (SymbolIndex.build [helper, page]).1
    standsFor index "helper".toList = "Acme\\Lib\\Helper".toList ∧
      (resolveFile page candidates index).countP
        (sameName · (standsFor index "helper".toList)) = 1 := by
  intro helper page candidates index
  exact ⟨by decide, (resolveFile_binds [helper, page] page candidates).2 "helper".toList
    (by decide) (by decide) (by decide) (by decide) (by decide)⟩

end Imports

end Namespacer
