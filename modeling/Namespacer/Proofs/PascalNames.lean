import Namespacer.PascalCase
import Namespacer.Proofs.AsciiCase
import Namespacer.Text.Blank

/-!
# The characters of PascalCase names

The words of a text are its letters and digits, cut into pieces (`flatten_wordsFrom`). A
PascalCase name consists of them, some in upper case (`mem_pascalCase`).

* `Text.eq_of_mem_upperChar`: some characters are in the upper case of no other one. So a
  PascalCase name holds no underscore and no backslash.
* `Text.exists_upperChar_eq`: the upper case of a letter or digit begins with a letter or
  digit. Combining marks may follow.
* `pascalCase_eq_of_prefix`: a text of letters and digits that its PascalCase name begins
  with is in PascalCase.
-/

namespace Namespacer

namespace Text

/-! ## Upper case -/

theorem toNat_ofNat_upperRows (c : Char) :
    (Char.ofNat (rowImage upperRows c.toNat)).toNat = rowImage upperRows c.toNat :=
  toNat_ofNat_rowImage (by decide) c

/-- Whether a character is in the upper case of no other one. -/
def isOwnUpper (m : Char) : Bool :=
  (List.range 128).all (fun n => (Char.ofNat n).toUpper != m || Char.ofNat n == m) &&
    upperExpansions.all (fun row => !(row.2.map Char.ofNat).contains m) &&
      upperRows.all (!reaches m.toNat ·)

theorem eq_of_mem_upperChar {m c : Char} (hm : isOwnUpper m = true) (h : m ∈ upperChar c) :
    c = m := by
  simp only [isOwnUpper, Bool.and_eq_true] at hm
  obtain ⟨⟨hascii, hexpansions⟩, hrows⟩ := hm
  rw [upperChar] at h
  split at h
  · rename_i hc
    have hcode := List.all_eq_true.mp hascii c.toNat (List.mem_range.mpr hc)
    rw [Char.ofNat_toNat, ← List.mem_singleton.mp h] at hcode
    simpa using hcode
  · split at h
    · rename_i image himage
      obtain ⟨before, after, heq, -⟩ := List.lookup_eq_some_iff.mp himage
      have hrow := List.all_eq_true.mp hexpansions (c.toNat, image) (by simp [heq])
      simp only [Bool.not_eq_true', List.contains_eq_mem, decide_eq_false_iff_not] at hrow
      exact absurd h hrow
    · have himage : rowImage upperRows c.toNat = m.toNat := by
        rw [List.mem_singleton.mp h, toNat_ofNat_upperRows]
      exact Char.toNat_inj.mp (eq_of_rowImage_eq hrows himage)

theorem upperChar_ne_nil (c : Char) : upperChar c ≠ [] := by
  rw [upperChar]
  split
  · simp
  · split
    · rename_i image himage
      obtain ⟨before, after, heq, -⟩ := List.lookup_eq_some_iff.mp himage
      have hrows : ∀ row ∈ upperExpansions, row.2.map Char.ofNat ≠ [] := by decide
      exact hrows (c.toNat, image) (by simp [heq])
    · simp

/-- A character that begins its upper case is its upper case. -/
theorem upperChar_of_head {c : Char} (h : (upperChar c).head? = some c) : upperChar c = [c] := by
  rw [upperChar] at h ⊢
  split at h
  · rename_i hc
    rw [if_pos hc]
    simpa using h
  · rename_i hc
    rw [if_neg hc]
    split at h
    · rename_i image himage
      obtain ⟨before, after, heq, -⟩ := List.lookup_eq_some_iff.mp himage
      have hnone : ∀ row ∈ upperExpansions,
          (row.2.map Char.ofNat).head? ≠ some (Char.ofNat row.1) := by
        decide
      have hrow := hnone (c.toNat, image) (by simp [heq])
      rw [Char.ofNat_toNat] at hrow
      exact absurd h hrow
    · simpa using h

/-- The ranges of letters and digits in which upper-case letters lie. -/
def upperRanges : List (Nat × Nat) := [
  (192, 214), (216, 246), (248, 705), (880, 884), (886, 887), (895, 895), (902, 902),
  (904, 906), (908, 908), (910, 929), (931, 1013), (1015, 1153), (1162, 1327), (1329, 1366),
  (4256, 4293), (4295, 4295), (4301, 4301), (5024, 5109), (7312, 7354), (7357, 7359),
  (7680, 7957), (7960, 7965), (7968, 8005), (8008, 8013), (8031, 8061), (8118, 8124),
  (8134, 8140), (8150, 8155), (8160, 8172), (8182, 8188), (8495, 8505), (8528, 8585),
  (11264, 11492), (11499, 11502), (11506, 11507), (42560, 42606), (42623, 42653),
  (42786, 42888), (42891, 42954), (42960, 42961), (42965, 42969), (42994, 43009),
  (65313, 65338), (66560, 66717), (66736, 66771), (66928, 66938), (66940, 66954),
  (66956, 66962), (66964, 66965), (68736, 68786), (71840, 71922), (93760, 93846),
  (125184, 125251)]

/-- Whether the code points from one to another lie in a range with upper-case letters. -/
def inUpperRange (low high : Nat) : Bool :=
  (upperRanges.find? (Nat.ble high ·.2)).any (Nat.ble ·.1 low)

theorem isAlphanumeric_of_inUpperRange {c : Char} {low high : Nat}
    (h : inUpperRange low high = true) (hlow : low ≤ c.toNat) (hhigh : c.toNat ≤ high) :
    isAlphanumeric c = true := by
  have hsublist : upperRanges.Sublist alphanumericRanges := by decide +kernel
  have hbeyond : ∀ range ∈ upperRanges, 128 ≤ range.1 := by decide
  rw [inUpperRange, Option.any_eq_true] at h
  obtain ⟨range, hfound, hrangeLow⟩ := h
  have hrangeHigh := List.find?_some hfound
  rw [Nat.ble_eq] at hrangeLow hrangeHigh
  have hrange := List.mem_of_find?_eq_some hfound
  have hascii := hbeyond range hrange
  refine isAlphanumeric_of_mem_ranges (hsublist.subset hrange) ?_ ?_ ?_
  · omega
  · omega
  · omega

/-- Whether a row of a case table leads from letters and digits to letters and digits: its
images lie in one range of them, or it starts from none of them, or each image is one. -/
def keepsLetters (row : Nat × Nat × Nat × Nat) : Bool :=
  inUpperRange row.2.2.2 (row.2.2.2 + (row.2.1 - row.1)) || betweenRanges row.1 row.2.1 ||
    (List.range (row.2.1 - row.1 + 1)).all fun k =>
      k % row.2.2.1 != 0 || isAlphanumeric (Char.ofNat (row.2.2.2 + k))

theorem isAlphanumeric_rowImage {c : Char} (hascii : ¬ c.toNat < 128)
    (hc : isAlphanumeric c = true) :
    isAlphanumeric (Char.ofNat (rowImage upperRows c.toNat)) = true := by
  rcases @rowImage_cases upperRows c.toNat with
    heq | ⟨low, high, step, image, hrow, hlow, hhigh, hstep, heq⟩
  · rwa [heq, Char.ofNat_toNat]
  · have hkeeps : upperRows.all keepsLetters = true := by decide +kernel
    have hkeep := List.all_eq_true.mp hkeeps _ hrow
    simp only [keepsLetters, Bool.or_eq_true, List.all_eq_true, List.mem_range] at hkeep
    rcases hkeep with (hrange | hnone) | hall
    · refine isAlphanumeric_of_inUpperRange hrange ?_ ?_
      · rw [toNat_ofNat_upperRows, heq]
        omega
      · rw [toNat_ofNat_upperRows, heq]
        omega
    · have hletter := isAlphanumeric_of_betweenRanges hnone hascii hlow hhigh
      exact absurd (hletter.symm.trans hc) Bool.false_ne_true
    · have hcase := hall (c.toNat - low) (by omega)
      rw [heq]
      simpa [hstep] using hcase

/-- An upper case of several characters begins with a letter. -/
theorem upperExpansions_head :
    ∀ row ∈ upperExpansions, ∃ first ∈ row.2.head?, isAlphanumeric (Char.ofNat first) = true := by
  have hrows : ∀ row ∈ upperExpansions, ∃ first ∈ row.2.head?,
      (Char.ofNat first).isAlphanum = true ∧ (Char.ofNat first).toNat < 128 ∨
        inUpperRange (Char.ofNat first).toNat (Char.ofNat first).toNat = true := by
    decide
  intro row hrow
  obtain ⟨first, hfirst, ⟨hletter, hascii⟩ | hrange⟩ := hrows row hrow
  · exact ⟨first, hfirst, by rwa [isAlphanumeric, if_pos hascii]⟩
  · exact ⟨first, hfirst, isAlphanumeric_of_inUpperRange hrange (Nat.le_refl _) (Nat.le_refl _)⟩

theorem upperExpansions_tail :
    ∀ row ∈ upperExpansions, ∀ d ∈ row.2.tail,
      128 ≤ (Char.ofNat d).toNat ∧ isBlank (Char.ofNat d) = false ∨
        isAlphanumeric (Char.ofNat d) = true := by
  decide

/-- The ways in which a letter or digit has an upper case: one letter or digit, or one and
more characters, all beyond ASCII and no blanks if they are not letters or digits. -/
theorem exists_upperChar_eq {c : Char} (hc : isAlphanumeric c = true) :
    ∃ first rest, upperChar c = first :: rest ∧ isAlphanumeric first = true ∧
      ∀ d ∈ rest, isAlphanumeric d = true ∨ 128 ≤ d.toNat ∧ isBlank d = false := by
  rw [upperChar]
  split
  · rename_i hascii
    refine ⟨_, [], rfl, ?_, by simp⟩
    exact forall_ascii (P := fun c => isAlphanumeric c = true → isAlphanumeric c.toUpper = true)
      (by decide) hascii hc
  · rename_i hascii
    split
    · rename_i image himage
      obtain ⟨before, after, heq, -⟩ := List.lookup_eq_some_iff.mp himage
      have hmem : (c.toNat, image) ∈ upperExpansions := by simp [heq]
      obtain ⟨first, hfirst, hletter⟩ := upperExpansions_head _ hmem
      obtain ⟨rest, rfl⟩ := List.head?_eq_some_iff.mp hfirst
      refine ⟨Char.ofNat first, rest.map Char.ofNat, rfl, hletter, ?_⟩
      intro d hd
      obtain ⟨code, hcode, rfl⟩ := List.mem_map.mp hd
      exact (upperExpansions_tail _ hmem code hcode).symm
    · exact ⟨_, [], rfl, isAlphanumeric_rowImage hascii hc, by simp⟩

end Text

open Text

/-! ## Words -/

/-- The words of a text are its letters and digits in their order. -/
theorem flatten_wordsFrom (word text : Text) :
    (wordsFrom word text).flatten = word.reverse ++ text.filter isAlphanumeric := by
  fun_induction wordsFrom word text with
  | case1 word hempty => simp_all
  | case2 word hempty => simp
  | case3 c text hc ih => simp [ih, hc]
  | case4 c text hc ih => simp [ih, hc]
  | case5 previous word c text hc ih => simp_all
  | case6 previous word c text hc hjoint ih => simp_all
  | case7 previous word c text hc hjoint ih => simp_all

theorem flatten_pascalWords (text : Text) :
    (pascalWords text).flatten = text.filter isAlphanumeric := flatten_wordsFrom [] text

theorem mem_capitalize {c : Char} {word : Text} (h : c ∈ capitalize word) :
    ∃ d ∈ word, c = d ∨ c ∈ upperChar d := by
  cases word with
  | nil => cases h
  | cons d word =>
    rcases List.mem_append.mp h with h | h
    · exact ⟨d, List.mem_cons_self, .inr h⟩
    · exact ⟨c, List.mem_cons_of_mem d h, .inl rfl⟩

/-- The characters of a PascalCase name are letters and digits of the text, or upper-case
images of them. -/
theorem mem_pascalCase {c : Char} {text : Text} (h : c ∈ pascalCase text) :
    ∃ d ∈ text, isAlphanumeric d = true ∧ (c = d ∨ c ∈ upperChar d) := by
  obtain ⟨word, hword, hc⟩ := List.mem_flatMap.mp h
  obtain ⟨d, hd, hcases⟩ := mem_capitalize hc
  have hletters : d ∈ text.filter isAlphanumeric :=
    flatten_pascalWords text ▸ List.mem_flatten_of_mem hword hd
  exact ⟨d, (List.mem_filter.mp hletters).1, (List.mem_filter.mp hletters).2, hcases⟩

/-- A PascalCase name holds only letters and digits and what is in their upper case. -/
theorem not_mem_pascalCase {m : Char} (hm : isOwnUpper m = true)
    (halnum : isAlphanumeric m = false) (text : Text) : m ∉ pascalCase text := by
  intro h
  obtain ⟨d, -, hd, rfl | hmem⟩ := mem_pascalCase h
  · exact Bool.false_ne_true (halnum.symm.trans hd)
  · rw [eq_of_mem_upperChar hm hmem] at hd
    exact Bool.false_ne_true (halnum.symm.trans hd)

theorem backslash_not_mem_pascalCase (text : Text) : '\\' ∉ pascalCase text :=
  not_mem_pascalCase (by decide) (by decide) text

theorem underscore_not_mem_pascalCase (text : Text) : '_' ∉ pascalCase text :=
  not_mem_pascalCase (by decide) (by decide) text

theorem ne_nil_of_mem_wordsFrom {word text found : Text} (h : found ∈ wordsFrom word text) :
    found ≠ [] := by
  fun_induction wordsFrom word text with
  | case1 word hempty => cases h
  | case2 word hempty => simp_all
  | case3 c text hc ih => exact ih h
  | case4 c text hc ih => exact ih h
  | case5 previous word c text hc ih =>
    rcases List.mem_cons.mp h with rfl | h
    · simp
    · exact ih h
  | case6 previous word c text hc hjoint ih =>
    rcases List.mem_cons.mp h with rfl | h
    · simp
    · exact ih h
  | case7 previous word c text hc hjoint ih => exact ih h

/-- A PascalCase name begins with the upper case of a letter or digit. -/
theorem pascalCase_cases (text : Text) :
    pascalCase text = [] ∨
      ∃ c rest, isAlphanumeric c = true ∧ pascalCase text = upperChar c ++ rest := by
  rw [pascalCase]
  cases hwords : pascalWords text with
  | nil => exact .inl rfl
  | cons word words =>
    have hmem : word ∈ pascalWords text := hwords ▸ List.mem_cons_self
    obtain ⟨c, word, rfl⟩ := List.exists_cons_of_ne_nil (ne_nil_of_mem_wordsFrom hmem)
    have hletter : c ∈ text.filter isAlphanumeric :=
      flatten_pascalWords text ▸ List.mem_flatten_of_mem hmem List.mem_cons_self
    refine .inr ⟨c, word ++ words.flatMap capitalize, (List.mem_filter.mp hletter).2, ?_⟩
    rw [List.flatMap_cons, capitalize, List.append_assoc]

/-- Words that begin what they are capitalized to are in upper case already. -/
theorem flatMap_capitalize_of_prefix {words : List Text} {rest : Text}
    (h : words.flatten ++ rest = words.flatMap capitalize) :
    words.flatMap capitalize = words.flatten := by
  induction words with
  | nil => rfl
  | cons word words ih =>
    cases word with
    | nil => exact ih h
    | cons c word =>
      rw [List.flatMap_cons, List.flatten_cons, capitalize] at h ⊢
      have hhead : (upperChar c).head? = some c := by
        cases hupper : upperChar c with
        | nil => exact absurd hupper (upperChar_ne_nil c)
        | cons first tail =>
          rw [hupper] at h
          simp only [List.cons_append, List.cons.injEq] at h
          rw [List.head?_cons, ← h.1]
      rw [upperChar_of_head hhead] at h ⊢
      simp only [List.cons_append, List.nil_append, List.append_assoc, List.cons.injEq,
        true_and, List.append_cancel_left_eq] at h ⊢
      exact ih h

/-- A text of letters and digits that its PascalCase name begins with is in PascalCase. -/
theorem pascalCase_eq_of_prefix {text : Text} (hletters : ∀ c ∈ text, isAlphanumeric c = true)
    (h : text <+: pascalCase text) : pascalCase text = text := by
  have hflatten : (pascalWords text).flatten = text := by
    rw [flatten_pascalWords, List.filter_eq_self.mpr hletters]
  obtain ⟨rest, hrest⟩ := h
  have hwords : (pascalWords text).flatten ++ rest = (pascalWords text).flatMap capitalize := by
    rw [hflatten]
    exact hrest
  rw [pascalCase, flatMap_capitalize_of_prefix hwords, hflatten]

end Namespacer
