import Mathlib.Data.List.Chain
import Namespacer.Proofs.PascalNames

/-!
# PascalCase names stay as they are

The words of a PascalCase name are not those that it was made of: `aB` and `a_b` both become
`AB`, which is one word. But a word of an ASCII text begins in front of a small letter only if
nothing or a digit stands there, and in a PascalCase name every small letter follows a letter
(`isChain_pascalCase`). So each word of it has an upper-case first letter already, and
`pascalCase_pascalCase` says that converting it again changes nothing. Letter case aside, only
what is neither letter nor digit is lost (`lower_pascalCase`), and letter case is changed for small
letters only, which are raised (`pascalCase_of_ascii`).
-/

namespace Namespacer

open Text

/-- Whether `c` may stand behind `previous` in a PascalCase name: a small letter follows a
letter. -/
def Rises (previous c : Char) : Prop := c.isLower = true → previous.isAlpha = true

/-! ## ASCII letters -/

/-- In upper case an ASCII letter or digit is no small letter and still a letter or a digit. -/
theorem toUpper_of_ascii {c : Char} (h : c.toNat < 128) :
    upperChar c = [c.toUpper] ∧ c.toUpper.toNat < 128 ∧ c.toUpper.isLower = false ∧
      c.toUpper.isAlpha = c.isAlpha ∧ isAlphanumeric c.toUpper = isAlphanumeric c ∧
      (c.isLower = false → c.toUpper = c) := by
  refine ⟨by rw [upperChar, if_pos h], ?_⟩
  exact forall_ascii (P := fun c => c.toUpper.toNat < 128 ∧ c.toUpper.isLower = false ∧
    c.toUpper.isAlpha = c.isAlpha ∧ isAlphanumeric c.toUpper = isAlphanumeric c ∧
    (c.isLower = false → c.toUpper = c)) (by decide) h

theorem upperChar_of_not_isLower {c : Char} (h : c.toNat < 128) (hlower : c.isLower = false) :
    upperChar c = [c] := by
  obtain ⟨hupper, -, -, -, -, hsame⟩ := toUpper_of_ascii h
  rw [hupper, hsame hlower]

/-- A small letter that follows a letter begins no word, and one that follows a digit does. -/
theorem isWordJoint_of_isLower {previous c : Char} (hprevious : previous.toNat < 128)
    (halnum : isAlphanumeric previous = true) (hc : c.toNat < 128) (hlower : c.isLower = true)
    (next : Option Char) : isWordJoint previous c next = !previous.isAlpha := by
  have hkinds : c.isUpper = false ∧ c.isDigit = false ∧ c.isAlpha = true :=
    forall_ascii (P := fun c => c.isLower = true →
      c.isUpper = false ∧ c.isDigit = false ∧ c.isAlpha = true) (by decide) hc hlower
  have hdigit : previous.isDigit = !previous.isAlpha :=
    forall_ascii (P := fun c => isAlphanumeric c = true → c.isDigit = !c.isAlpha)
      (by decide) hprevious halnum
  simp [isWordJoint, hkinds, hdigit]

/-! ## The words of an ASCII text -/

/-- Inside a word of an ASCII text a small letter follows a letter. -/
theorem isChain_of_mem_wordsFrom {word text found : Text} (hascii : IsAscii text)
    (hword : ∀ c ∈ word, c.toNat < 128 ∧ isAlphanumeric c = true)
    (hchain : word.IsChain fun c previous => Rises previous c)
    (h : found ∈ wordsFrom word text) : found.IsChain Rises := by
  fun_induction wordsFrom word text with
  | case1 word hempty => cases h
  | case2 word hempty =>
    rw [List.mem_singleton.mp h, List.isChain_reverse]
    exact hchain
  | case3 c text hc ih =>
    rw [IsAscii, List.forall_mem_cons] at hascii
    exact ih hascii.2 (by simp [hascii.1, hc]) (by simp) h
  | case4 c text hc ih => exact ih (List.forall_mem_cons.mp hascii).2 (by simp) (by simp) h
  | case5 previous word c text hc ih =>
    rcases List.mem_cons.mp h with rfl | h
    · rw [List.isChain_reverse]
      exact hchain
    · exact ih (List.forall_mem_cons.mp hascii).2 (by simp) (by simp) h
  | case6 previous word c text hc hjoint ih =>
    rw [IsAscii, List.forall_mem_cons] at hascii
    rcases List.mem_cons.mp h with rfl | h
    · rw [List.isChain_reverse]
      exact hchain
    · exact ih hascii.2 (by simpa [hascii.1] using hc) (by simp) h
  | case7 previous word c text hc hjoint ih =>
    rw [IsAscii, List.forall_mem_cons] at hascii
    obtain ⟨hprevious, halnum⟩ := hword previous List.mem_cons_self
    refine ih hascii.2 ?_ (List.isChain_cons_cons.mpr ⟨?_, hchain⟩) h
    · exact List.forall_mem_cons.mpr ⟨⟨hascii.1, by simpa using hc⟩, hword⟩
    · intro hlower
      rw [isWordJoint_of_isLower hprevious halnum hascii.1 hlower] at hjoint
      simpa using hjoint

/-- A small letter in a PascalCase name of an ASCII text follows a letter, also across the
words that the name was made of. -/
theorem isChain_flatMap_capitalize {words : List Text}
    (hwords : ∀ word ∈ words, word ≠ [] ∧ IsAscii word ∧ word.IsChain Rises) :
    (words.flatMap capitalize).IsChain Rises ∧
      ∀ c ∈ (words.flatMap capitalize).head?, c.isLower = false := by
  induction words with
  | nil => simp
  | cons word words ih =>
    rw [List.forall_mem_cons] at hwords
    obtain ⟨⟨hne, hascii, hchain⟩, hrest⟩ := hwords
    obtain ⟨hchainRest, hhead⟩ := ih hrest
    obtain ⟨c, word, rfl⟩ := List.exists_cons_of_ne_nil hne
    obtain ⟨hupper, -, hlower, halpha, -⟩ := toUpper_of_ascii (hascii c List.mem_cons_self)
    have hfirst : capitalize (c :: word) = c.toUpper :: word := by
      rw [capitalize, hupper]
      rfl
    rw [List.flatMap_cons, hfirst]
    refine ⟨List.isChain_append.mpr ⟨?_, hchainRest, ?_⟩, by simp [hlower]⟩
    · rw [List.isChain_cons] at hchain ⊢
      refine ⟨fun next hnext hnextLower => ?_, hchain.2⟩
      rw [halpha]
      exact hchain.1 next hnext hnextLower
    · intro last _ next hnext hnextLower
      rw [hhead next hnext] at hnextLower
      cases hnextLower

theorem isChain_pascalCase {text : Text} (h : IsAscii text) :
    (pascalCase text).IsChain Rises ∧ ∀ c ∈ (pascalCase text).head?, c.isLower = false := by
  refine isChain_flatMap_capitalize fun word hword => ⟨ne_nil_of_mem_wordsFrom hword, ?_, ?_⟩
  · intro c hc
    have hmem : c ∈ text.filter isAlphanumeric :=
      flatten_pascalWords text ▸ List.mem_flatten_of_mem hword hc
    exact h c (List.mem_filter.mp hmem).1
  · exact isChain_of_mem_wordsFrom h (by simp) (by simp) hword

/-! ## Converting again -/

/-- Where small letters follow letters, every word has an upper-case first letter. -/
theorem capitalize_of_mem_wordsFrom {word text found : Text}
    (hall : ∀ c ∈ word.reverse ++ text, c.toNat < 128 ∧ isAlphanumeric c = true)
    (hchain : (word.reverse ++ text).IsChain Rises)
    (hfirst : ∀ c ∈ (word.reverse ++ text).head?, c.isLower = false)
    (h : found ∈ wordsFrom word text) : capitalize found = found := by
  -- A word that is complete begins the text.
  have hdone {first : Char} {rest after : Text}
      (hall : ∀ c ∈ first :: rest ++ after, c.toNat < 128 ∧ isAlphanumeric c = true)
      (hfirst : ∀ c ∈ (first :: rest ++ after).head?, c.isLower = false) :
      capitalize (first :: rest) = first :: rest := by
    rw [capitalize, upperChar_of_not_isLower (hall first (by simp)).1 (hfirst first (by simp))]
    rfl
  fun_induction wordsFrom word text with
  | case1 word hempty => cases h
  | case2 word hempty =>
    obtain ⟨first, rest, hword⟩ : ∃ first rest, word.reverse = first :: rest :=
      List.exists_cons_of_ne_nil (by simpa using hempty)
    rw [List.mem_singleton.mp h, hword]
    rw [hword] at hall hfirst
    exact hdone hall hfirst
  | case3 c text hc ih => exact ih hall hchain hfirst h
  | case4 c text hc ih => exact absurd (hall c (by simp)).2 hc
  | case5 previous word c text hc ih =>
    have halnum := (hall c (by simp)).2
    rw [halnum] at hc
    cases hc
  | case6 previous word c text hc hjoint ih =>
    obtain ⟨-, hchainRest, hnext⟩ := List.isChain_append.mp hchain
    have hrises : Rises previous c := hnext previous (by simp) c (by simp)
    have hprevious := hall previous (by simp)
    have hcode := (hall c (by simp)).1
    have hlower : c.isLower = false := by
      by_contra hlower
      rw [Bool.not_eq_false] at hlower
      rw [isWordJoint_of_isLower hprevious.1 hprevious.2 hcode hlower, hrises hlower] at hjoint
      cases hjoint
    rcases List.mem_cons.mp h with rfl | h
    · obtain ⟨first, rest, hword⟩ : ∃ first rest, (previous :: word).reverse = first :: rest :=
        List.exists_cons_of_ne_nil (by simp)
      rw [hword] at hall hfirst ⊢
      exact hdone hall hfirst
    · refine ih ?_ hchainRest (by simp [hlower]) h
      exact fun d hd => hall d (List.mem_append_right _ hd)
  | case7 previous word c text hc hjoint ih =>
    rw [List.reverse_cons, List.append_assoc, List.singleton_append] at ih
    exact ih hall hchain hfirst h

/-- The PascalCase name of an ASCII text consists of ASCII letters and digits. -/
theorem ascii_of_mem_pascalCase {text : Text} (h : IsAscii text) {c : Char}
    (hc : c ∈ pascalCase text) : c.toNat < 128 ∧ isAlphanumeric c = true := by
  obtain ⟨d, hd, halnum, rfl | hmem⟩ := mem_pascalCase hc
  · exact ⟨h c hd, halnum⟩
  · obtain ⟨hupper, hascii, -, -, hsame, -⟩ := toUpper_of_ascii (h d hd)
    rw [hupper, List.mem_singleton] at hmem
    rw [hmem]
    exact ⟨hascii, hsame.trans halnum⟩

/-- A PascalCase name of an ASCII text is in PascalCase. -/
theorem pascalCase_pascalCase {text : Text} (h : IsAscii text) :
    pascalCase (pascalCase text) = pascalCase text := by
  have hall : ∀ c ∈ pascalCase text, c.toNat < 128 ∧ isAlphanumeric c = true :=
    fun c hc => ascii_of_mem_pascalCase h hc
  obtain ⟨hchain, hhead⟩ := isChain_pascalCase h
  have hwords : ∀ word ∈ wordsFrom [] (pascalCase text), capitalize word = word := by
    intro word hword
    refine capitalize_of_mem_wordsFrom ?_ ?_ ?_ hword
    · exact hall
    · exact hchain
    · exact hhead
  calc pascalCase (pascalCase text)
      = (pascalWords (pascalCase text)).flatMap id := List.flatMap_congr hwords
    _ = (pascalWords (pascalCase text)).flatten := List.flatMap_id
    _ = (pascalCase text).filter isAlphanumeric := flatten_pascalWords _
    _ = pascalCase text := List.filter_eq_self.mpr fun c hc => (hall c hc).2

/-! ## Lower case -/

theorem map_toLower_capitalize {word : Text} (h : IsAscii word) :
    (capitalize word).map Char.toLower = word.map Char.toLower := by
  cases word with
  | nil => rfl
  | cons c word =>
    have hc := h c List.mem_cons_self
    have hsame : c.toUpper.toLower = c.toLower :=
      forall_ascii (P := fun c => c.toUpper.toLower = c.toLower) (by decide) hc
    rw [capitalize, (toUpper_of_ascii hc).1, List.singleton_append, List.map_cons, List.map_cons,
      hsame]

theorem isAscii_of_mem_pascalWords {text word : Text} (h : IsAscii text)
    (hword : word ∈ pascalWords text) : IsAscii word := by
  intro c hc
  have hmem : c ∈ text.filter isAlphanumeric :=
    flatten_pascalWords text ▸ List.mem_flatten_of_mem hword hc
  exact h c (List.mem_filter.mp hmem).1

/-- In lower case, the PascalCase name of an ASCII text is the text without what is neither letter
nor digit. -/
theorem lower_pascalCase {text : Text} (h : IsAscii text) :
    lower (pascalCase text) = (lower text).filter isAlphanumeric := by
  have hkind : ∀ c ∈ text, isAlphanumeric c = (isAlphanumeric ∘ Char.toLower) c := fun c hc =>
    forall_ascii (P := fun c => isAlphanumeric c = isAlphanumeric c.toLower) (by decide) (h c hc)
  calc lower (pascalCase text)
      = (pascalCase text).map Char.toLower :=
        lower_of_ascii fun c hc => (ascii_of_mem_pascalCase h hc).1
    _ = (pascalWords text).flatMap fun word => (capitalize word).map Char.toLower :=
        List.map_flatMap
    _ = (pascalWords text).flatMap fun word => word.map Char.toLower :=
        List.flatMap_congr fun word hword => map_toLower_capitalize (isAscii_of_mem_pascalWords h hword)
    _ = (pascalWords text).flatten.map Char.toLower := List.map_flatten.symm
    _ = (text.filter (isAlphanumeric ∘ Char.toLower)).map Char.toLower := by
        rw [flatten_pascalWords, List.filter_congr hkind]
    _ = (lower text).filter isAlphanumeric := by
        rw [lower_of_ascii h, List.filter_map]

/-! ## What the conversion changes -/

/-- Whether a character is kept, or raised from a small letter to upper case. -/
def IsRaised (c raised : Char) : Prop := raised = c ∨ c.isLower = true ∧ raised = c.toUpper

theorem forall₂_isRaised_capitalize {word : Text} (h : IsAscii word) :
    List.Forall₂ IsRaised word (capitalize word) := by
  cases word with
  | nil => exact .nil
  | cons c word =>
    obtain ⟨hupper, -, -, -, -, hsame⟩ := toUpper_of_ascii (h c List.mem_cons_self)
    rw [capitalize, hupper]
    refine .cons ?_ (List.forall₂_same.mpr fun d _ => .inl rfl)
    by_cases hlower : c.isLower = true
    · exact .inr ⟨hlower, rfl⟩
    · exact .inl (hsame (by simpa using hlower))

theorem forall₂_isRaised_flatMap_capitalize {words : List Text} (h : ∀ word ∈ words, IsAscii word) :
    List.Forall₂ IsRaised words.flatten (words.flatMap capitalize) := by
  induction words with
  | nil => exact .nil
  | cons word words ih =>
    rw [List.forall_mem_cons] at h
    exact List.rel_append (forall₂_isRaised_capitalize h.1) (ih h.2)

/-- The PascalCase name of an ASCII text consists of its letters and digits, which differ only
where a small letter was raised. So letter case aside nothing else is lost, the name is empty only
if there is no letter or digit, and it is in PascalCase itself. -/
theorem pascalCase_of_ascii {text : Text} (h : IsAscii text) :
    (∀ c ∈ pascalCase text, c.isAlphanum = true) ∧
      lower (pascalCase text) = lower (text.filter Char.isAlphanum) ∧
      List.Forall₂ IsRaised (text.filter Char.isAlphanum) (pascalCase text) ∧
      (pascalCase text = [] ↔ ∀ c ∈ text, c.isAlphanum = false) ∧
      isPascalCase (pascalCase text) = true ∧ pascalCase (pascalCase text) = pascalCase text := by
  have hletters : text.filter isAlphanumeric = text.filter Char.isAlphanum :=
    List.filter_congr fun c hc => if_pos (h c hc)
  have hraised : List.Forall₂ IsRaised (text.filter Char.isAlphanum) (pascalCase text) := by
    have hall := forall₂_isRaised_flatMap_capitalize fun _ => isAscii_of_mem_pascalWords h
    rwa [flatten_pascalWords, hletters] at hall
  have hkept : IsAscii (text.filter Char.isAlphanum) := fun c hc => h c (List.mem_filter.mp hc).1
  refine ⟨fun c hc => ?_, ?_, hraised, ?_, ?_, pascalCase_pascalCase h⟩
  · obtain ⟨hascii, halnum⟩ := ascii_of_mem_pascalCase h hc
    rwa [isAlphanumeric, if_pos hascii] at halnum
  · rw [lower_pascalCase h, lower_of_ascii h, lower_of_ascii hkept, ← hletters, List.filter_map]
    refine congrArg (List.map Char.toLower) (List.filter_congr fun c hc => ?_)
    exact forall_ascii (P := fun c => isAlphanumeric c.toLower = isAlphanumeric c) (by decide)
      (h c hc)
  · rw [← List.length_eq_zero_iff, ← hraised.length_eq, List.length_eq_zero_iff,
      List.filter_eq_nil_iff]
    simp only [Bool.not_eq_true]
  · rw [isPascalCase, pascalCase_pascalCase h, beq_self_eq_true]

/-- Separators of several kinds, a small letter behind a digit and an abbreviation. -/
theorem pascalCase_of_ascii_report :
    let text := "--v2report_XMLFile 3d".toList
    IsAscii text ∧ pascalCase text = "V2ReportXMLFile3D".toList ∧
      List.Forall₂ IsRaised (text.filter Char.isAlphanum) (pascalCase text) ∧
      isPascalCase (pascalCase text) = true := by
  intro text
  have hascii : IsAscii text := by simp [IsAscii, text]
  obtain ⟨-, -, hraised, -, hpascal, -⟩ := pascalCase_of_ascii hascii
  exact ⟨hascii, by decide, hraised, hpascal⟩

end Namespacer
