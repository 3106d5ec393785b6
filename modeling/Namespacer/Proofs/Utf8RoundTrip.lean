import Namespacer.Text.Encoding
import Mathlib.Data.List.TakeWhile

/-!
# What is written in `utf8` is read back

A code point is written as a leading byte and up to three more bytes, each with six of its bits.
The leading byte tells how many bytes follow, and narrows down the first of them where a code point
could be written in fewer bytes, or is a surrogate or too great. Code points of characters are none
of these, so that every character is read as it was written.

* `Encoding.readScalar_encodeChar`: the bytes of a character are read as this character.
* `Encoding.utf8_decode_flatMap`: reading undoes writing.
-/

namespace Namespacer.Encoding

/-! ## Bytes -/

theorem toNat_ofNat_of_lt {n : Nat} (h : n < 256) : (UInt8.ofNat n).toNat = n := by
  rw [UInt8.toNat_ofNat', Nat.mod_eq_of_lt h]

theorem leadOf?_of_one {value : Nat} (h : value < 0x80) : leadOf? value = some (0, value, 0, 0) :=
  if_pos h

theorem leadOf?_of_two {value : Nat} (hlow : 2 ≤ value) (hhigh : value < 32) :
    leadOf? (value + 192) = some (1, value, 0x80, 0xBF) := by
  rw [leadOf?, if_neg (by omega), if_neg (by omega), if_pos (by omega), Nat.add_sub_cancel]

/-- Two bytes follow. The first of them is as great as it has to be if the code point is no
surrogate and needs three bytes. -/
theorem leadOf?_of_three {value next : Nat} (hhigh : value < 16) (hnext : next < 64)
    (hleast : 32 ≤ 64 * value + next)
    (hsurrogate : 64 * value + next < 864 ∨ 896 ≤ 64 * value + next) :
    ∃ low high, leadOf? (value + 224) = some (2, value, low, high) ∧ low ≤ next + 128 ∧
      next + 128 ≤ high := by
  rw [leadOf?, if_neg (by omega), if_neg (by omega), if_neg (by omega)]
  by_cases hfirst : value = 0
  · refine ⟨0xA0, 0xBF, ?_, by omega, by omega⟩
    rw [hfirst, if_pos rfl]
  · rw [if_neg (by omega)]
    by_cases hlast : value = 13
    · refine ⟨0x80, 0x9F, ?_, by omega, by omega⟩
      rw [hlast, if_pos rfl]
    · refine ⟨0x80, 0xBF, ?_, by omega, by omega⟩
      rw [if_neg (by omega), if_pos (by omega), Nat.add_sub_cancel]

/-- Three bytes follow. The first of them is as great as it has to be if the code point needs four
bytes and is not too great. -/
theorem leadOf?_of_four {value next : Nat} (hnext : next < 64)
    (hleast : 16 ≤ 64 * value + next) (hgreatest : 64 * value + next < 272) :
    ∃ low high, leadOf? (value + 240) = some (3, value, low, high) ∧ low ≤ next + 128 ∧
      next + 128 ≤ high := by
  rw [leadOf?, if_neg (by omega), if_neg (by omega), if_neg (by omega), if_neg (by omega),
    if_neg (by omega), if_neg (by omega)]
  by_cases hfirst : value = 0
  · refine ⟨0x90, 0xBF, ?_, by omega, by omega⟩
    rw [hfirst, if_pos rfl]
  · rw [if_neg (by omega)]
    by_cases hlast : value = 4
    · refine ⟨0x80, 0x8F, ?_, by omega, by omega⟩
      rw [hlast, if_neg (by omega), if_pos rfl]
    · refine ⟨0x80, 0xBF, ?_, by omega, by omega⟩
      rw [if_pos (by omega), Nat.add_sub_cancel]

/-- A byte with the next six bits of a code point. -/
theorem readTail_cons {low high value due taken next : Nat} {rest : Bytes} (hnext : next < 64)
    (hlow : low ≤ next + 128) (hhigh : next + 128 ≤ high) :
    readTail low high value (due + 1) taken (UInt8.ofNat (next + 128) :: rest) =
      readTail 0x80 0xBF (64 * value + next) due (taken + 1) rest := by
  rw [readTail, toNat_ofNat_of_lt (by omega), if_pos ⟨hlow, hhigh⟩, Nat.add_sub_cancel]

/-! ## Characters -/

/-- The bytes of a character are read as its code point. -/
theorem readScalar_encodeChar (c : Char) (rest : Bytes) :
    ∃ byte tail, String.utf8EncodeChar c = byte :: tail ∧
      readScalar byte (tail ++ rest) = .ok (tail.length, c.toNat) := by
  have hvalid : c.toNat < 0xD800 ∨ 0xDFFF < c.toNat ∧ c.toNat < 0x110000 := c.valid
  have hcode : c.val.toNat = c.toNat := rfl
  rw [String.utf8EncodeChar, hcode]
  generalize c.toNat = code at hvalid
  split
  · refine ⟨_, _, rfl, ?_⟩
    rw [readScalar, toNat_ofNat_of_lt (by omega), leadOf?_of_one (by omega)]
    rfl
  split
  · refine ⟨_, _, rfl, ?_⟩
    rw [readScalar, toNat_ofNat_of_lt (by omega), leadOf?_of_two (by omega) (by omega)]
    simp only [List.cons_append, List.nil_append]
    rw [readTail_cons (by omega) (by omega) (by omega), readTail]
    have heq : 64 * (code / 64 % 32) + code % 64 = code := by omega
    rw [heq]
    rfl
  split
  · refine ⟨_, _, rfl, ?_⟩
    obtain ⟨low, high, hlead, hlow, hhigh⟩ :=
      @leadOf?_of_three (code / 4096 % 16) (code / 64 % 64) (by omega) (by omega) (by omega)
        (by omega)
    rw [readScalar, toNat_ofNat_of_lt (by omega), hlead]
    simp only [List.cons_append, List.nil_append]
    rw [readTail_cons (by omega) hlow hhigh, readTail_cons (by omega) (by omega) (by omega),
      readTail]
    have heq : 64 * (64 * (code / 4096 % 16) + code / 64 % 64) + code % 64 = code := by omega
    rw [heq]
    rfl
  · refine ⟨_, _, rfl, ?_⟩
    obtain ⟨low, high, hlead, hlow, hhigh⟩ :=
      @leadOf?_of_four (code / 262144 % 8) (code / 4096 % 64) (by omega) (by omega) (by omega)
    rw [readScalar, toNat_ofNat_of_lt (by omega), hlead]
    simp only [List.cons_append, List.nil_append]
    rw [readTail_cons (by omega) hlow hhigh, readTail_cons (by omega) (by omega) (by omega),
      readTail_cons (by omega) (by omega) (by omega), readTail]
    have heq : 64 * (64 * (64 * (code / 262144 % 8) + code / 4096 % 64) + code / 64 % 64) +
        code % 64 = code := by omega
    rw [heq]
    rfl

theorem decodeUtf8From_skip (position : Nat) (passed rest : Bytes) :
    decodeUtf8From position passed.length (passed ++ rest) =
      decodeUtf8From (position + passed.length) 0 rest := by
  induction passed generalizing position with
  | nil => rfl
  | cons byte passed ih =>
    rw [List.length_cons, List.cons_append, decodeUtf8From, ih, Nat.add_right_comm, Nat.add_assoc]

/-- Reading the bytes of a character and what follows them. -/
theorem decodeUtf8From_encodeChar (position : Nat) (c : Char) (rest : Bytes) :
    decodeUtf8From position 0 (String.utf8EncodeChar c ++ rest) =
      (decodeUtf8From (position + (String.utf8EncodeChar c).length) 0 rest).map (c :: ·) := by
  obtain ⟨byte, tail, hbytes, hread⟩ := readScalar_encodeChar c rest
  rw [hbytes, List.cons_append, decodeUtf8From, hread]
  dsimp only
  rw [decodeUtf8From_skip, Char.ofNat_toNat, List.length_cons, Nat.add_right_comm, Nat.add_assoc]

/-! ## Texts -/

theorem utf8_decodeFrom_flatMap (position : Nat) (codes : List Nat) :
    decodeUtf8From position 0 (codes.flatMap utf8.bytesOf) = .ok (codes.map Char.ofNat) := by
  induction codes generalizing position with
  | nil => rfl
  | cons code codes ih =>
    rw [List.flatMap_cons, bytesOf, decodeUtf8From_encodeChar, ih]
    rfl

/-- Reading in `utf8` undoes writing. -/
theorem utf8_decode_flatMap (codes : List Nat) :
    utf8.decode (codes.flatMap utf8.bytesOf) = .ok (codes.map Char.ofNat) :=
  utf8_decodeFrom_flatMap 0 codes

/-- Everything but surrogates can be written in `utf8`. -/
theorem utf8_encodeCodes {codes : List Nat} (h : ∀ code ∈ codes, Text.isSurrogate code = false) :
    utf8.encodeCodes codes = .ok (codes.flatMap utf8.bytesOf) := by
  have hwritable : codes.dropWhile utf8.canWrite = [] := by
    rw [List.dropWhile_eq_nil_iff]
    intro code hcode
    rw [canWrite, h code hcode, Bool.not_false]
  rw [encodeCodes, hwritable]
  rfl

/-- Surrogates cannot be written in `utf8`. -/
theorem utf8_encodeCodes_of_isSurrogate {codes : List Nat} {code : Nat} (hcode : code ∈ codes)
    (hsurrogate : Text.isSurrogate code = true) :
    ∃ fault, utf8.encodeCodes codes = .error fault := by
  have hunwritable : codes.dropWhile utf8.canWrite ≠ [] := by
    rw [Ne, List.dropWhile_eq_nil_iff]
    intro hall
    have hwrite := hall code hcode
    rw [canWrite, hsurrogate, Bool.not_true] at hwrite
    cases hwrite
  rw [encodeCodes]
  split
  · next hnil => exact absurd hnil hunwritable
  · exact ⟨_, rfl⟩

end Namespacer.Encoding
