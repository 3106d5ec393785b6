import Namespacer.Proofs.AutoloadLookup
import Namespacer.Proofs.ImportAliases
import Mathlib.Data.List.Find

/-!
# What a fresh index is fresh for

An index remembers the fingerprints of its files as a set. Its answers depend on the order
of the files, since the first file that declares a name keeps it.

* `Path.ofText_toText`: a path in its normal form is determined by its text, so that a
  fingerprint determines what its file declares.
* `SymbolIndex.lookup?_build_eq_find?`: a built index answers with the first file that
  declares a name.
* `SymbolIndex.lookup?_of_isStale_eq_false`: what the answers of an index that is not stale
  have in common with those of a new one; `not_forall_lookup?_eq` shows that they can differ.
-/

namespace Namespacer

/-! ## Paths in normal form -/

theorem Text.splitOn_of_not_mem {separator : Char} {piece : Text} (h : separator ∉ piece) :
    splitOn separator piece = [piece] := by
  induction piece with
  | nil => rfl
  | cons c piece ih =>
    rw [List.mem_cons, not_or] at h
    rw [splitOn, if_neg (Ne.symm h.1), ih h.2]

theorem Text.splitOn_append_cons {separator : Char} {piece : Text} (h : separator ∉ piece)
    (text : Text) :
    splitOn separator (piece ++ separator :: text) = piece :: splitOn separator text := by
  induction piece with
  | nil => rw [List.nil_append, splitOn, if_pos rfl]
  | cons c piece ih =>
    rw [List.mem_cons, not_or] at h
    rw [List.cons_append, splitOn, if_neg (Ne.symm h.1), ih h.2]

/-- Joined pieces are split where they were joined. -/
theorem Text.splitOn_join {separator : Char} {pieces : List Text} (hne : pieces ≠ [])
    (h : ∀ piece ∈ pieces, separator ∉ piece) :
    splitOn separator (join [separator] pieces) = pieces := by
  induction pieces with
  | nil => exact absurd rfl hne
  | cons piece pieces ih =>
    rw [List.forall_mem_cons] at h
    by_cases hlast : pieces = []
    · subst hlast
      exact splitOn_of_not_mem h.1
    · rw [join_cons_of_ne_nil hlast, List.append_assoc, List.singleton_append,
        splitOn_append_cons h.1, ih hlast h.2]

theorem Text.not_mem_of_mem_splitOn {separator : Char} {text piece : Text}
    (h : piece ∈ splitOn separator text) : separator ∉ piece := by
  induction text generalizing piece with
  | nil =>
    rw [splitOn, List.mem_singleton] at h
    subst h
    exact List.not_mem_nil
  | cons c text ih =>
    rw [splitOn] at h
    split at h
    · rcases List.mem_cons.mp h with rfl | h
      · exact List.not_mem_nil
      · exact ih h
    · rename_i hc
      split at h
      · rw [List.mem_singleton] at h
        subst h
        simpa using Ne.symm hc
      · rename_i first pieces hpieces
        rcases List.mem_cons.mp h with rfl | h
        · have hfirst : separator ∉ first := ih (hpieces ▸ List.mem_cons_self)
          rw [List.mem_cons, not_or]
          exact ⟨Ne.symm hc, hfirst⟩
        · exact ih (hpieces ▸ List.mem_cons_of_mem _ h)

namespace Path

/-- Whether a path is in normal form: its anchor is one of the three, and no name is empty,
a single dot or holds a slash. -/
structure IsNormal (path : Path) : Prop where
  anchor : path.anchor ∈ [[], ['/'], ['/', '/']]
  isName : ∀ name ∈ path.names, isName name = true
  not_slashed : ∀ name ∈ path.names, '/' ∉ name

instance (path : Path) : Decidable path.IsNormal :=
  decidable_of_iff
    (path.anchor ∈ [[], ['/'], ['/', '/']] ∧ (∀ name ∈ path.names, Path.isName name = true) ∧
      ∀ name ∈ path.names, '/' ∉ name)
    ⟨fun h => ⟨h.1, h.2.1, h.2.2⟩, fun h => ⟨h.1, h.2, h.3⟩⟩

theorem anchorOf_mem (text : Text) : anchorOf text ∈ [[], ['/'], ['/', '/']] := by
  unfold anchorOf
  split <;> decide

/-- Every path that is read is in normal form. -/
theorem isNormal_ofText (text : Text) : (ofText text).IsNormal where
  anchor := anchorOf_mem text
  isName := fun _ hname => (List.mem_filter.mp hname).2
  not_slashed := fun _ hname => Text.not_mem_of_mem_splitOn (List.mem_filter.mp hname).1

theorem anchorOf_append {anchor text : Text} (h : anchor ∈ [[], ['/'], ['/', '/']])
    (htext : ∀ rest, text ≠ '/' :: rest) : anchorOf (anchor ++ text) = anchor := by
  have hrelative : anchorOf text = [] := by
    unfold anchorOf
    split <;> simp_all
  simp only [List.mem_cons, List.not_mem_nil, or_false] at h
  rcases h with rfl | rfl | rfl
  · exact hrelative
  · cases text with
    | nil => rfl
    | cons c text =>
      have hc : c ≠ '/' := fun hc => htext text (by rw [hc])
      simp [anchorOf, hc]
  · cases text with
    | nil => rfl
    | cons c text =>
      simp [anchorOf]

theorem filter_splitOn_append {anchor : Text} (h : anchor ∈ [[], ['/'], ['/', '/']])
    (text : Text) :
    (Text.splitOn '/' (anchor ++ text)).filter Path.isName =
      (Text.splitOn '/' text).filter Path.isName := by
  simp only [List.mem_cons, List.not_mem_nil, or_false] at h
  rcases h with rfl | rfl | rfl <;> rfl

/-- A path in its normal form is read back from its text. -/
theorem ofText_toText {path : Path} (h : path.IsNormal) : ofText path.toText = path := by
  obtain ⟨anchor, names⟩ := path
  obtain ⟨hanchor, hname, hslash⟩ := h
  simp only at hanchor hname hslash
  cases names with
  | nil =>
    simp only [List.mem_cons, List.not_mem_nil, or_false] at hanchor
    rcases hanchor with rfl | rfl | rfl <;> rfl
  | cons name names =>
    have htext : toText ⟨anchor, name :: names⟩ = anchor ++ Text.join ['/'] (name :: names) := by
      cases anchor <;> rfl
    have hstart : ∀ rest, Text.join ['/'] (name :: names) ≠ '/' :: rest := by
      intro rest heq
      rw [Text.join_cons] at heq
      cases name with
      | nil => exact absurd (hname [] List.mem_cons_self) (by decide)
      | cons c name =>
        rw [List.cons_append, List.cons.injEq] at heq
        exact hslash (c :: name) List.mem_cons_self (heq.1 ▸ List.mem_cons_self)
    have hnames : (name :: names).filter Path.isName = name :: names :=
      List.filter_eq_self.mpr hname
    rw [htext, ofText, anchorOf_append hanchor hstart, filter_splitOn_append hanchor,
      Text.splitOn_join (List.cons_ne_nil _ _) hslash, hnames]

end Path

/-! ## The files that declare a name -/

/-- Whether a file declares a type that a name stands for. -/
def SourceFile.declares (name : Text) (file : SourceFile) : Bool :=
  !file.isTemplate && file.properNamespace?.isSome && Text.lower file.typeName == Text.lower name

/-- What an index remembers of a file. -/
def SourceFile.fingerprint (file : SourceFile) : Fingerprint :=
  (file.path.toText, file.typeName, file.namespaceName)

/-- An empty file with a fingerprint. -/
def Fingerprint.file (print : Fingerprint) : SourceFile :=
  { path := Path.ofText print.1, typeName := print.2.1, contents := [], namespaceName := print.2.2 }

/-- A fingerprint determines what its file declares, and under which qualified name. -/
theorem Fingerprint.file_fingerprint {file : SourceFile} (h : file.path.IsNormal) :
    (∀ name, file.fingerprint.file.declares name = file.declares name) ∧
      file.fingerprint.file.qualifiedName = file.qualifiedName := by
  have hpath : file.fingerprint.file.path = file.path := Path.ofText_toText h
  constructor
  · intro name
    rw [SourceFile.declares, SourceFile.isTemplate, hpath]
    rfl
  · rfl

namespace SymbolIndex

theorem lookupFolded?_append (symbols : List (Text × Text)) (type qualified name : Text) :
    lookupFolded? (symbols ++ [(type, qualified)]) name =
      (lookupFolded? symbols name).or
        (if Text.lower type == Text.lower name then some qualified else none) := by
  rw [lookupFolded?, lookupFolded?, List.find?_append, Option.map_or]
  congr 1
  by_cases h : Text.lower type = Text.lower name <;> simp [h]

/-- Registering answers first with what was known, then with the first file that declares
the name. -/
theorem lookupFolded?_register (files : List SourceFile) (symbols : List (Text × Text))
    (name : Text) :
    lookupFolded? (register files symbols).1 name =
      (lookupFolded? symbols name).or ((files.find? (·.declares name)).map (·.qualifiedName)) := by
  induction files generalizing symbols with
  | nil => simp [register]
  | cons file files ih =>
    rw [register]
    split
    · rename_i hskipped
      have hdeclares : file.declares name = false := by
        rw [SourceFile.declares]
        rcases Bool.or_eq_true_iff.mp hskipped with h | h
        · rw [h]
          rfl
        · rw [Option.isNone_iff_eq_none.mp h]
          simp
      rw [ih, List.find?_cons_of_neg (by simp [hdeclares])]
    · rename_i hdeclaring
      rw [Bool.or_eq_true_iff, not_or, Bool.not_eq_true, Bool.not_eq_true] at hdeclaring
      have hdeclares : file.declares name = (Text.lower file.typeName == Text.lower name) := by
        rw [SourceFile.declares, hdeclaring.1, ← Option.not_isNone, hdeclaring.2]
        rfl
      split
      · rename_i kept hkept
        rw [ih]
        by_cases hname : Text.lower file.typeName = Text.lower name
        · -- The name is taken, so that the file does not matter.
          have hknown : lookupFolded? symbols name = some kept := by
            rw [← hkept, lookupFolded?, lookupFolded?, hname]
          rw [hknown, Option.some_or, Option.some_or]
        · rw [List.find?_cons_of_neg (by simp [hdeclares, hname])]
      · rw [ih, lookupFolded?_append, Option.or_assoc, ← hdeclares]
        cases hname : file.declares name with
        | true => rw [if_pos rfl, Option.some_or, List.find?_cons_of_pos hname, Option.map_some]
        | false =>
          rw [if_neg Bool.false_ne_true, Option.none_or, List.find?_cons_of_neg (by simp [hname])]

/-- A built index answers with the first file that declares the name. -/
theorem lookup?_build_eq_find? (files : List SourceFile) (name : Text) :
    (build files).1.lookup? name = (files.find? (·.declares name)).map (·.qualifiedName) := by
  rw [lookup?_build]
  exact (lookupFolded?_register files [] name).trans (Option.none_or)

/-- The fingerprints of the files determine the answers of an index. -/
theorem lookup?_build_eq_find?_fingerprints {files : List SourceFile}
    (h : ∀ file ∈ files, file.path.IsNormal) (name : Text) :
    (build files).1.lookup? name =
      ((fingerprints files).find? (·.file.declares name)).map (·.file.qualifiedName) := by
  have hfingerprints : fingerprints files = files.map (·.fingerprint) := rfl
  have hdeclares : ∀ file ∈ files, file.declares name = file.fingerprint.file.declares name :=
    fun file hfile => ((Fingerprint.file_fingerprint (h file hfile)).1 name).symm
  rw [lookup?_build_eq_find?, List.find?_congr hdeclares, hfingerprints, List.find?_map,
    Option.map_map]
  rfl

/-! ## Fresh indices -/

theorem mem_fingerprints_iff {files current : List SourceFile}
    (h : (build files).1.isStale current = false) (print : Fingerprint) :
    print ∈ fingerprints files ↔ print ∈ fingerprints current := by
  have hsame : sameFingerprints (fingerprints current) (fingerprints files) = true := by
    rw [isStale, Bool.not_eq_false'] at h
    exact h
  simp only [sameFingerprints, Bool.and_eq_true, List.all_eq_true, List.contains_iff_mem] at hsame
  exact ⟨hsame.2 print, hsame.1 print⟩

/-- Repetitions after the first do not change what is found first. -/
theorem find?_eraseDups (p : Fingerprint → Bool) (prints : List Fingerprint) :
    prints.eraseDups.find? p = prints.find? p := by
  match prints with
  | [] => rfl
  | print :: prints =>
    rw [List.eraseDups_cons]
    cases hp : p print with
    | true => rw [List.find?_cons_of_pos hp, List.find?_cons_of_pos hp]
    | false =>
      have hlength : (prints.filter fun other => !other == print).length ≤ prints.length :=
        List.length_filter_le _ _
      rw [List.find?_cons_of_neg (by simp [hp]), List.find?_cons_of_neg (by simp [hp]),
        find?_eraseDups p (prints.filter fun other => !other == print), List.find?_filter]
      apply List.find?_congr
      intro other _
      by_cases heq : other = print
      · simp [heq, hp]
      · simp [heq]
termination_by prints.length
decreasing_by
  rw [List.length_cons]
  omega

/-- The answers of an index that is not stale against those of a new one: both know the
same names, what the old index answers is the qualified name of a file that declares the
name now, and the answers are the same where there is only one such name, and everywhere if
the files come in the same order as before. -/
theorem lookup?_of_isStale_eq_false {files current : List SourceFile}
    (hfiles : ∀ file ∈ files, file.path.IsNormal)
    (hcurrent : ∀ file ∈ current, file.path.IsNormal)
    (hfresh : (build files).1.isStale current = false) (name : Text) :
    ((build files).1.lookup? name).isSome = ((build current).1.lookup? name).isSome ∧
      (∀ qualified, (build files).1.lookup? name = some qualified →
        ∃ file ∈ current, file.declares name = true ∧ file.qualifiedName = qualified) ∧
      ((∀ file ∈ current, ∀ other ∈ current, file.declares name = true →
          other.declares name = true → file.qualifiedName = other.qualifiedName) →
        (build files).1.lookup? name = (build current).1.lookup? name) ∧
      ((fingerprints files).eraseDups = (fingerprints current).eraseDups →
        (build files).1.lookup? name = (build current).1.lookup? name) := by
  have hmem := mem_fingerprints_iff hfresh
  have hsome : ((build files).1.lookup? name).isSome = ((build current).1.lookup? name).isSome := by
    rw [lookup?_build_eq_find?_fingerprints hfiles, lookup?_build_eq_find?_fingerprints hcurrent,
      Option.isSome_map, Option.isSome_map, Bool.eq_iff_iff, List.find?_isSome, List.find?_isSome]
    simp only [hmem]
  have hdeclared : ∀ qualified, (build files).1.lookup? name = some qualified →
      ∃ file ∈ current, file.declares name = true ∧ file.qualifiedName = qualified := by
    intro qualified hlookup
    rw [lookup?_build_eq_find?_fingerprints hfiles, Option.map_eq_some_iff] at hlookup
    obtain ⟨print, hfind, rfl⟩ := hlookup
    have hprint := (hmem print).mp (List.mem_of_find?_eq_some hfind)
    obtain ⟨file, hfile, rfl⟩ := List.mem_map.mp hprint
    obtain ⟨hdeclares, hqualified⟩ := Fingerprint.file_fingerprint (hcurrent file hfile)
    have hfound := List.find?_some hfind
    exact ⟨file, hfile, (hdeclares name).symm.trans hfound, hqualified.symm⟩
  refine ⟨hsome, hdeclared, ?_, ?_⟩
  · intro hone
    cases hlookup : (build files).1.lookup? name with
    | none =>
      rw [hlookup, Option.isSome_none] at hsome
      rw [Option.isSome_eq_false_iff.mp hsome.symm |> Option.isNone_iff_eq_none.mp]
    | some qualified =>
      obtain ⟨file, hfile, hdeclares, rfl⟩ := hdeclared qualified hlookup
      rw [hlookup, Option.isSome_some, lookup?_build_eq_find?, Option.isSome_map] at hsome
      obtain ⟨first, hfind⟩ := Option.isSome_iff_exists.mp hsome.symm
      have hfirst := hone file hfile first (List.mem_of_find?_eq_some hfind) hdeclares
        (List.find?_some hfind)
      rw [lookup?_build_eq_find?, hfind, Option.map_some, hfirst]
  · intro horder
    rw [lookup?_build_eq_find?_fingerprints hfiles, lookup?_build_eq_find?_fingerprints hcurrent,
      ← find?_eraseDups _ (fingerprints files), horder, find?_eraseDups]

/-- A class file in a namespace that is named like its directory. -/
def classFile (directory type : String) : SourceFile where
  path := ⟨[], [directory.toList, (type ++ ".php").toList]⟩
  typeName := type.toList
  contents := []
  namespaceName := some directory.toList

/-- The files of an index in another order: a name that is declared once is still answered
as by a new index. -/
theorem lookup?_of_isStale_eq_false_swapped :
    (build [classFile "A" "Widget", classFile "B" "Gadget"]).1.isStale
        [classFile "B" "Gadget", classFile "A" "Widget"] = false ∧
      (build [classFile "A" "Widget", classFile "B" "Gadget"]).1.lookup? "widget".toList =
        (build [classFile "B" "Gadget", classFile "A" "Widget"]).1.lookup? "widget".toList := by
  have hfresh : (build [classFile "A" "Widget", classFile "B" "Gadget"]).1.isStale
      [classFile "B" "Gadget", classFile "A" "Widget"] = false := by decide +kernel
  exact ⟨hfresh, (lookup?_of_isStale_eq_false (by decide +kernel) (by decide +kernel) hfresh
    "widget".toList).2.2.1 (by decide +kernel)⟩

/-- A name that two files declare is answered in the order in which the index was built,
which the fingerprints do not keep. -/
theorem not_forall_lookup?_eq :
    ¬ ∀ files current : List SourceFile, (∀ file ∈ files, file.path.IsNormal) →
      (∀ file ∈ current, file.path.IsNormal) → (build files).1.isStale current = false →
        ∀ name, (build files).1.lookup? name = (build current).1.lookup? name := by
  intro h
  have hwidget := h [classFile "A" "Widget", classFile "B" "Widget"]
    [classFile "B" "Widget", classFile "A" "Widget"] (by decide +kernel) (by decide +kernel)
    (by decide +kernel) "Widget".toList
  revert hwidget
  decide +kernel

end SymbolIndex

end Namespacer
