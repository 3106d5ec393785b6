import Namespacer.Text.LetterCase
import Mathlib.Data.List.Forall2

/-!
# Letter case and ASCII

Names are mostly ASCII, but the texts in which they are looked for are not. Two
facts carry the comparison of the two over:

* `Text.lower_of_ascii`: the lower case of an ASCII text is taken character by
  character;
* `Text.sameFolded_cases`: besides its own two cases an ASCII letter agrees with
  four letters of the rest of the alphabet, `İ`, `ı`, `ſ` and the Kelvin sign.

Letters and digits beyond ASCII are given by ranges of code points. A whole run of code
points lies in one of them (`Text.isAlphanumeric_of_mem_ranges`) or between two of them
(`Text.isAlphanumeric_of_betweenRanges`).
-/

namespace Namespacer.Text

/-- Whether all characters of a text are ASCII. -/
def IsAscii (text : Text) : Prop := ∀ c ∈ text, c.toNat < 128

/-- What holds of the first 128 characters holds of every ASCII character. -/
theorem forall_ascii {P : Char → Prop} (h : ∀ n < 128, P (Char.ofNat n)) {c : Char}
    (hc : c.toNat < 128) : P c := by
  rw [← Char.ofNat_toNat c]
  exact h _ hc

theorem toNat_toLower_lt {c : Char} (h : c.toNat < 128) : c.toLower.toNat < 128 :=
  forall_ascii (P := fun c => c.toLower.toNat < 128) (by decide) h

theorem lowerChar_of_ascii {c : Char} (h : c.toNat < 128) : lowerChar c = c.toLower := if_pos h

theorem lowerFrom_of_ascii {text : Text} (h : IsAscii text) (before : Text) :
    lowerFrom before text = text.map Char.toLower := by
  induction text generalizing before with
  | nil => rfl
  | cons c text ih =>
    simp only [IsAscii, List.mem_cons, forall_eq_or_imp] at h
    rw [lowerFrom, ih h.2, lowerBetween, if_pos h.1]
    rfl

theorem lower_of_ascii {text : Text} (h : IsAscii text) : lower text = text.map Char.toLower :=
  lowerFrom_of_ascii h []

/-! ## Letters and digits beyond ASCII -/

theorem isAlphanumeric_of_mem_ranges {c : Char} {range : Nat × Nat}
    (hrange : range ∈ alphanumericRanges) (hascii : ¬ c.toNat < 128) (hlow : range.1 ≤ c.toNat)
    (hhigh : c.toNat ≤ range.2) : isAlphanumeric c = true := by
  rw [isAlphanumeric, if_neg hascii, inRanges, List.any_eq_true]
  exact ⟨range, hrange, by simp [hlow, hhigh]⟩

/-- Whether there are no letters and digits among the code points from one to another. -/
def betweenRanges (low high : Nat) : Bool :=
  alphanumericRanges.all fun range => Nat.blt range.2 low || Nat.blt high range.1

theorem isAlphanumeric_of_betweenRanges {c : Char} {low high : Nat}
    (h : betweenRanges low high = true) (hascii : ¬ c.toNat < 128) (hlow : low ≤ c.toNat)
    (hhigh : c.toNat ≤ high) : isAlphanumeric c = false := by
  rw [isAlphanumeric, if_neg hascii, inRanges, List.any_eq_false]
  intro range hrange
  have hoff := List.all_eq_true.mp h range hrange
  simp only [Bool.or_eq_true, Nat.blt_eq] at hoff
  simp only [Bool.and_eq_true, decide_eq_true_eq]
  omega

/-! ## The letters that agree with an ASCII letter -/

/-- What a row of a case table says about an image that it gives. -/
theorem rowImage_cases {rows : List (Nat × Nat × Nat × Nat)} {n : Nat} :
    rowImage rows n = n ∨ ∃ low high step image, (low, high, step, image) ∈ rows ∧
      low ≤ n ∧ n ≤ high ∧ (n - low) % step = 0 ∧ rowImage rows n = image + (n - low) := by
  unfold rowImage
  split
  · rename_i low high step image hfind
    have hrow := List.find?_some hfind
    simp only [Bool.and_eq_true, decide_eq_true_eq, beq_iff_eq] at hrow
    exact .inr ⟨low, high, step, image, List.mem_of_find?_eq_some hfind, hrow.1.1, hrow.1.2,
      hrow.2, rfl⟩
  · exact .inl rfl

theorem lowerRows_image :
    ∀ row ∈ lowerRows, 128 ≤ row.2.2.2 ∨ row = (304, 304, 1, 105) ∨ row = (8490, 8490, 1, 107) := by
  decide +kernel

theorem eq_of_rowImage_lowerRows_lt {n : Nat} (hn : 128 ≤ n) (h : rowImage lowerRows n < 128) :
    n = 304 ∨ n = 8490 := by
  rcases @rowImage_cases lowerRows n with heq | ⟨low, high, step, image, hrow, hlow, hhigh, -, heq⟩
  · omega
  · rcases lowerRows_image _ hrow with himage | hrow | hrow
    · dsimp only at himage
      omega
    · simp only [Prod.mk.injEq] at hrow
      omega
    · simp only [Prod.mk.injEq] at hrow
      omega

/-- Whether a row of a case table reaches an image. -/
def reaches (image : Nat) (row : Nat × Nat × Nat × Nat) : Bool :=
  row.2.2.2 ≤ image && image ≤ row.2.2.2 + (row.2.1 - row.1) &&
    (image - row.2.2.2) % row.2.2.1 == 0

theorem eq_of_rowImage_eq {rows : List (Nat × Nat × Nat × Nat)} {n m : Nat}
    (hrows : rows.all (!reaches m ·) = true) (h : rowImage rows n = m) : n = m := by
  rcases @rowImage_cases rows n with heq | ⟨low, high, step, image, hrow, hlow, hhigh, hstep, heq⟩
  · omega
  · have hno := List.all_eq_true.mp hrows _ hrow
    simp only [reaches, Bool.not_eq_true', Bool.and_eq_false_iff, decide_eq_false_iff_not,
      beq_eq_false_iff_ne] at hno
    rcases hno with (hno | hno) | hno
    · omega
    · omega
    · rw [← h, heq, Nat.add_sub_cancel_left] at hno
      exact absurd hstep hno

/-- Whether all images that a row gives are code points of characters. -/
def givesValid (row : Nat × Nat × Nat × Nat) : Bool :=
  row.2.2.2 + (row.2.1 - row.1) < 0xD800 ||
    0xDFFF < row.2.2.2 && row.2.2.2 + (row.2.1 - row.1) < 0x110000

theorem toNat_ofNat_rowImage {rows : List (Nat × Nat × Nat × Nat)}
    (hrows : rows.all givesValid = true) (c : Char) :
    (Char.ofNat (rowImage rows c.toNat)).toNat = rowImage rows c.toNat := by
  have hvalid : (rowImage rows c.toNat).isValidChar := by
    rcases @rowImage_cases rows c.toNat with
      heq | ⟨low, high, step, image, hrow, hlow, hhigh, -, heq⟩
    · rw [heq]
      exact c.valid
    · have hrow := List.all_eq_true.mp hrows _ hrow
      simp only [givesValid, Bool.or_eq_true, Bool.and_eq_true, decide_eq_true_eq] at hrow
      rw [heq, Nat.isValidChar]
      omega
  rw [Char.ofNat, dif_pos hvalid]
  rfl

theorem toNat_lowerChar {c : Char} (h : ¬ c.toNat < 128) :
    (lowerChar c).toNat = rowImage lowerRows c.toNat := by
  rw [lowerChar, if_neg h, toNat_ofNat_rowImage (by decide)]

/-- The letters beyond ASCII that agree with an ASCII letter. -/
def isFoldedExtra (c : Char) : Bool :=
  c.toNat == 0x130 || c.toNat == 0x131 || c.toNat == 0x17F || c.toNat == 0x212A

theorem sameLetters_ascii {k y : Nat} (hk : k < 128) (h : y ∈ (sameLetters.lookup k).getD []) :
    y = 305 ∧ k = 'i'.toNat ∨ y = 383 ∧ k = 's'.toNat := by
  have hrows : ∀ row ∈ sameLetters, row.1 < 128 → ∀ y ∈ row.2,
      y = 305 ∧ row.1 = 'i'.toNat ∨ y = 383 ∧ row.1 = 's'.toNat := by
    decide
  cases hlookup : sameLetters.lookup k with
  | none =>
    rw [hlookup] at h
    cases h
  | some letters =>
    rw [hlookup] at h
    obtain ⟨before, after, heq, -⟩ := List.lookup_eq_some_iff.mp hlookup
    exact hrows (k, letters) (by simp [heq]) hk y h

/-- An ASCII character agrees with its two cases, and three letters agree with
one of the four extra letters besides. -/
theorem sameFolded_cases {k c : Char} (hk : k.toNat < 128) (h : sameFolded k c = true) :
    c.toNat < 128 ∧ c.toLower = k.toLower ∨
      isFoldedExtra c = true ∧ (k.toLower = 'i' ∨ k.toLower = 's' ∨ k.toLower = 'k') := by
  rw [sameFolded, lowerChar_of_ascii hk] at h
  simp only [Bool.or_eq_true, beq_iff_eq, List.contains_iff_mem] at h
  have hklt := toNat_toLower_lt hk
  by_cases hc : c.toNat < 128
  · rw [lowerChar_of_ascii hc] at h
    have hclt := toNat_toLower_lt hc
    rcases h with h | h
    · exact .inl ⟨hc, h.symm⟩
    · have := sameLetters_ascii hklt h
      omega
  · refine .inr ?_
    simp only [isFoldedExtra, Bool.or_eq_true, beq_iff_eq, ← Char.toNat_inj]
    have hnat := toNat_lowerChar hc
    rcases h with h | h
    · have hlt : rowImage lowerRows c.toNat < 128 := hnat ▸ h ▸ hklt
      have himage : rowImage lowerRows c.toNat = k.toLower.toNat := hnat ▸ h ▸ rfl
      rcases eq_of_rowImage_lowerRows_lt (by omega) hlt with hextra | hextra
      · rw [hextra, show rowImage lowerRows 304 = 105 by decide] at himage
        exact ⟨by omega, .inl himage.symm⟩
      · rw [hextra, show rowImage lowerRows 8490 = 107 by decide] at himage
        exact ⟨by omega, .inr (.inr himage.symm)⟩
    · rcases sameLetters_ascii hklt h with ⟨himage, hletter⟩ | ⟨himage, hletter⟩
      · have := eq_of_rowImage_eq (m := 305) (by decide) (hnat ▸ himage)
        exact ⟨by omega, .inl hletter⟩
      · have := eq_of_rowImage_eq (m := 383) (by decide) (hnat ▸ himage)
        exact ⟨by omega, .inr (.inl hletter)⟩

/-- ASCII characters that are the same in lower case agree. -/
theorem sameFolded_of_toLower_eq {k c : Char} (hk : k.toNat < 128) (hc : c.toNat < 128)
    (h : k.toLower = c.toLower) : sameFolded k c = true := by
  simp [sameFolded, lowerChar_of_ascii hk, lowerChar_of_ascii hc, h]

theorem toNat_lt_of_toLower {c : Char} (h : c.toLower.toNat < 128) : c.toNat < 128 := by
  by_cases hupper : c.val ≥ 'A'.val ∧ c.val ≤ 'Z'.val
  · have hle : c.toNat ≤ 90 := UInt32.le_iff_toNat_le.mp hupper.2
    omega
  · have hsame : c.toLower = c := dif_neg hupper
    rwa [hsame] at h

/-- Apart from three letters, an ASCII character agrees with its two cases only. -/
theorem sameFolded_iff {k c : Char} (hk : k.toNat < 128)
    (hplain : k.toLower ≠ 'i' ∧ k.toLower ≠ 's' ∧ k.toLower ≠ 'k') :
    sameFolded k c = true ↔ c.toLower = k.toLower := by
  constructor
  · intro h
    rcases sameFolded_cases hk h with ⟨-, heq⟩ | ⟨-, hextra⟩
    · exact heq
    · tauto
  · intro h
    exact sameFolded_of_toLower_eq hk (toNat_lt_of_toLower (h ▸ toNat_toLower_lt hk)) h.symm

theorem isWord_of_isFoldedExtra {c : Char} (h : isFoldedExtra c = true) : isWord c = true := by
  have hcode : ∀ n ∈ [0x130, 0x131, 0x17F, 0x212A], isWord (Char.ofNat n) = true := by
    decide +kernel
  simp only [isFoldedExtra, Bool.or_eq_true, beq_iff_eq] at h
  rw [← Char.ofNat_toNat c]
  exact hcode _ (by simp only [List.mem_cons]; omega)

end Namespacer.Text
