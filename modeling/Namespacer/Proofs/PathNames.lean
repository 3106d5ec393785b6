import Namespacer.Renaming
import Mathlib.Data.List.TakeWhile

/-!
# Stems and suffixes

A name is cut at its last dot, unless that dot is its first or its last character.
`Path.splitSuffix_cases` says when it is cut and into what; `Path.splitSuffix_append` puts a
new stem in front of a suffix and gets both back. `FileRename.ofPath?_eq_some_iff` says for
which stems a new one is planned, and what is planned for them.
-/

namespace Namespacer.Path

/-- Where a name is cut, if it is. -/
theorem splitSuffix_of_dot {stem tail : Text} (hdot : '.' ∉ tail) :
    splitSuffix (stem ++ '.' :: tail) =
      if stem = [] ∨ tail = [] then (stem ++ '.' :: tail, []) else (stem, '.' :: tail) := by
  have hfound : (((stem ++ '.' :: tail).reverse).takeWhile (· != '.')).reverse = tail := by
    rw [List.reverse_append, List.reverse_cons, List.append_assoc, List.takeWhile_append_of_pos]
    · simp
    · intro c hc
      rw [bne_iff_ne]
      rintro rfl
      exact hdot (List.mem_reverse.mp hc)
  have hlength : (stem ++ '.' :: tail).length - tail.length - 1 = stem.length := by
    rw [List.length_append, List.length_cons]
    omega
  have hcut : (stem ++ '.' :: tail).take stem.length = stem := List.take_left' rfl
  have hlonger : tail.length ≠ (stem ++ '.' :: tail).length := by
    rw [List.length_append, List.length_cons]
    omega
  simp only [splitSuffix, hfound, hlength, hcut, hlonger, decide_false, Bool.or_false,
    Bool.or_eq_true, List.isEmpty_iff]
  simp only [or_comm]

/-- A stem and a suffix of one dot are cut where they meet. -/
theorem splitSuffix_append {stem tail : Text} (hstem : stem ≠ []) (htail : tail ≠ [])
    (hdot : '.' ∉ tail) : splitSuffix (stem ++ '.' :: tail) = (stem, '.' :: tail) := by
  rw [splitSuffix_of_dot hdot, if_neg]
  exact not_or.mpr ⟨hstem, htail⟩

/-- A name has no suffix, or is cut at its last dot. -/
theorem splitSuffix_cases (name : Text) :
    splitSuffix name = (name, []) ∨ ∃ stem tail, stem ≠ [] ∧ tail ≠ [] ∧ '.' ∉ tail ∧
      name = stem ++ '.' :: tail ∧ splitSuffix name = (stem, '.' :: tail) := by
  by_cases hdot : '.' ∈ name
  · obtain ⟨before, after, hname, hbefore⟩ := List.eq_append_cons_of_mem (List.mem_reverse.mpr hdot)
    obtain ⟨stem, tail, rfl, htail⟩ : ∃ stem tail, name = stem ++ '.' :: tail ∧ '.' ∉ tail := by
      refine ⟨after.reverse, before.reverse, ?_, by simpa using hbefore⟩
      simpa using congrArg List.reverse hname
    by_cases hempty : stem = [] ∨ tail = []
    · exact .inl (by rw [splitSuffix_of_dot htail, if_pos hempty])
    · rw [not_or] at hempty
      exact .inr ⟨stem, tail, hempty.1, hempty.2, htail, rfl,
        splitSuffix_append hempty.1 hempty.2 htail⟩
  · have hall : name.reverse.takeWhile (· != '.') = name.reverse := by
      rw [List.takeWhile_eq_self_iff]
      intro c hc
      rw [bne_iff_ne]
      rintro rfl
      exact hdot (List.mem_reverse.mp hc)
    exact .inl (by simp [splitSuffix, hall])

/-- The last name of a path is its stem and its suffix. -/
theorem stem_append_suffix (path : Path) : path.stem ++ path.suffix = path.name := by
  rw [stem, suffix]
  rcases splitSuffix_cases path.name with h | ⟨stem, tail, -, -, -, hname, h⟩
  · simp [h]
  · rw [h, hname]

end Namespacer.Path

namespace Namespacer

/-! ## Plans -/

/-- A file whose stem has a PascalCase form, and another one than itself, is to be given this
form. -/
theorem FileRename.ofPath?_eq_some_iff {path : Path} {plan : FileRename} :
    ofPath? path = some plan ↔
      pascalCase path.stem ≠ path.stem ∧ pascalCase path.stem ≠ [] ∧
        plan = ⟨path, path.withName (pascalCase path.stem ++ path.suffix), path.stem,
          pascalCase path.stem⟩ := by
  by_cases hnames : path.stem = pascalCase path.stem ∨ pascalCase path.stem = []
  · have hnone : ofPath? path = none := by
      rw [ofPath?, if_pos (by simpa [isPascalCase] using hnames)]
    simp only [hnone, reduceCtorEq, false_iff, not_and]
    exact fun hne hnil => absurd hnames (not_or.mpr ⟨hne.symm, hnil⟩)
  · rw [ofPath?, if_neg (by simpa [isPascalCase] using hnames), Option.some.injEq, eq_comm]
    rw [not_or] at hnames
    exact ⟨fun h => ⟨Ne.symm hnames.1, hnames.2, h⟩, fun h => h.2.2⟩

theorem FileRename.oldPath_of_ofPath? {path : Path} {plan : FileRename}
    (h : ofPath? path = some plan) : plan.oldPath = path := by
  obtain ⟨-, -, rfl⟩ := ofPath?_eq_some_iff.mp h
  rfl

end Namespacer
