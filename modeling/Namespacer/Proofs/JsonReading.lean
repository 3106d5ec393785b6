import Namespacer.Proofs.JsonTexts

/-!
# Every JSON text is read

The reader is followed through the grammar: each part of a text that the grammar derives is read as
what it stands for, up to the rest of the text. Two things need care. A reader takes as much white
space and as many digits as it can, so that the rest must not go on with them. And the bound on the
number of steps has to leave enough for the rest of an array or an object once one value is read.

* `Json.Reads`: a reader takes the first part of a text, wherever the text stands.
* `Json.ValueText.reads`: values are read.
* `Json.parse_of_isTextOf`: every text is read, and as the value it stands for.
-/

namespace Namespacer.Json

/-! ## Lengths -/

theorem length_lt_append {passed : Text} (h : passed ≠ []) (rest : Text) :
    rest.length < (passed ++ rest).length := by
  rw [List.length_append]
  exact Nat.lt_add_of_pos_left (List.length_pos_iff.mpr h)

theorem Spaces.length_le {text rest : Text} (h : Spaces text rest) : rest.length ≤ text.length := by
  induction h with
  | none => exact Nat.le_refl _
  | cons _ _ ih => exact Nat.le_succ_of_le ih

theorem Spaces.length_lt {c : Char} {text rest : Text} (h : Spaces text (c :: rest)) :
    rest.length < text.length := h.length_le

theorem StringText.length_lt {text rest : Text} {codes : List Nat}
    (h : StringText text codes rest) : rest.length < text.length := by
  induction h <;> simp only [List.length_cons, List.length_append] <;> omega

theorem IntegerText.length_lt {text rest : Text} {value : Int} (h : IntegerText text value rest) :
    rest.length < text.length := by
  cases h with
  | natural hdigits => exact length_lt_append hdigits.ne_nil rest
  | negative hdigits => exact Nat.lt_succ_of_lt (length_lt_append hdigits.ne_nil rest)

mutual

theorem ValueText.length_lt {text rest : Text} {value : Json} (h : ValueText text value rest) :
    rest.length < text.length := by
  match h with
  | .null => exact length_lt_append (by decide) rest
  | .true => exact length_lt_append (by decide) rest
  | .false => exact length_lt_append (by decide) rest
  | .int htext => exact htext.length_lt
  | .string htext => exact Nat.lt_succ_of_lt htext.length_lt
  | .emptyArray hspaces => exact Nat.lt_succ_of_lt hspaces.length_lt
  | .array hspaces helements =>
    exact Nat.lt_succ_of_lt (Nat.lt_of_lt_of_le helements.length_lt hspaces.length_le)
  | .emptyObject hspaces => exact Nat.lt_succ_of_lt hspaces.length_lt
  | .object hspaces hmembers =>
    exact Nat.lt_succ_of_lt (Nat.lt_of_lt_of_le hmembers.length_lt hspaces.length_le)

theorem ElementsText.length_lt {text rest : Text} {elements : List Json}
    (h : ElementsText text elements rest) : rest.length < text.length := by
  match h with
  | .last hvalue hclose => exact Nat.lt_trans hclose.length_lt hvalue.length_lt
  | .cons hvalue hcomma hspaces hothers =>
    calc rest.length
      _ < _ := hothers.length_lt
      _ ≤ _ := hspaces.length_le
      _ < _ := hcomma.length_lt
      _ < text.length := hvalue.length_lt

theorem MembersText.length_lt {text rest : Text} {members : List (List Nat × Json)}
    (h : MembersText text members rest) : rest.length < text.length := by
  match h with
  | .last hmember hclose => exact Nat.lt_trans hclose.length_lt hmember.length_lt
  | .cons hmember hcomma hspaces hothers =>
    calc rest.length
      _ < _ := hothers.length_lt
      _ ≤ _ := hspaces.length_le
      _ < _ := hcomma.length_lt
      _ < text.length := hmember.length_lt

theorem MemberText.length_lt {text rest : Text} {member : List Nat × Json}
    (h : MemberText text member rest) : rest.length < text.length := by
  match h with
  | .mk hkey hcolon hspaces hvalue =>
    calc rest.length
      _ < _ := hvalue.length_lt
      _ ≤ _ := hspaces.length_le
      _ < _ := hcolon.length_lt
      _ < _ := hkey.length_lt
      _ < _ := Nat.lt_succ_self _

end

/-! ## White space -/

/-- A reader takes the first part of a text as a value and stops at the rest, wherever the text
stands. -/
def Reads {α : Type} (read : Cursor → Except FaultAt (α × Cursor)) (text : Text) (value : α)
    (rest : Text) : Prop :=
  ∀ position, ∃ next, read ⟨position, text⟩ = .ok (value, ⟨next, rest⟩)

/-- A text does not go on with white space. -/
def EndsSpaces (text : Text) : Prop := ∀ c ∈ text.head?, Cursor.isSpace c = false

theorem endsSpaces_cons {c : Char} (hc : Cursor.isSpace c = false) (text : Text) :
    EndsSpaces (c :: text) := by
  intro d hd
  rwa [← Option.mem_some_iff.mp hd]

theorem Spaces.exists_eq_append {text rest : Text} (h : Spaces text rest) :
    ∃ blanks, text = blanks ++ rest ∧ ∀ c ∈ blanks, Cursor.isSpace c = true := by
  induction h with
  | none => exact ⟨[], rfl, List.forall_mem_nil _⟩
  | @cons c _ _ hc _ ih =>
    obtain ⟨blanks, rfl, hblanks⟩ := ih
    have hspace : ∀ c ∈ [' ', '\t', '\n', '\r'], Cursor.isSpace c = true := by
      simp [Cursor.isSpace]
    exact ⟨c :: blanks, rfl, List.forall_mem_cons.mpr ⟨hspace c hc, hblanks⟩⟩

/-- All the white space before a rest is passed over. -/
theorem Spaces.skipSpace_eq {text rest : Text} (h : Spaces text rest) (hrest : EndsSpaces rest)
    (position : Nat) : ∃ next, Cursor.skipSpace ⟨position, text⟩ = ⟨next, rest⟩ := by
  obtain ⟨blanks, rfl, hblanks⟩ := h.exists_eq_append
  have hnone : rest.takeWhile Cursor.isSpace = [] := by
    cases rest with
    | nil => rfl
    | cons c rest => rw [List.takeWhile_cons, hrest c rfl]; rfl
  have htake : (blanks ++ rest).takeWhile Cursor.isSpace = blanks := by
    rw [List.takeWhile_append_of_pos hblanks, hnone, List.append_nil]
  refine ⟨position + blanks.length, ?_⟩
  rw [Cursor.skipSpace, htake, Cursor.advance, List.drop_left]

/-! ## Strings -/

theorem IsHexDigit.hexValue?_eq {c : Char} {value : Nat} (h : IsHexDigit c value) :
    hexValue? c = some value := by
  have hdigits : ∀ v < 16, hexValue? (Nat.digitChar v) = some v ∧
      hexValue? (Nat.digitChar v).toUpper = some v := by decide
  obtain ⟨hvalue, rfl | rfl⟩ := h
  · exact (hdigits value hvalue).1
  · exact (hdigits value hvalue).2

theorem HexText.hexCode?_eq {digits : Text} {code : Nat} (h : HexText digits code) :
    hexCode? digits = some code := by
  cases h with
  | mk h₁ h₂ h₃ h₄ =>
    simp only [hexCode?, List.foldl_cons, List.foldl_nil, h₁.hexValue?_eq, h₂.hexValue?_eq,
      h₃.hexValue?_eq, h₄.hexValue?_eq, Option.pure_def, Option.bind_eq_bind, Option.bind_some]
    congr 1
    omega

theorem HexText.length_eq {digits : Text} {code : Nat} (h : HexText digits code) :
    digits.length = 4 := by
  cases h
  rfl

/-- A code point of its own stays as it is when surrogates are joined. -/
theorem joinSurrogates_cons {code : Nat} (h : code < 0xD800 ∨ 0xDFFF < code) (codes : List Nat) :
    joinSurrogates (code :: codes) = code :: joinSurrogates codes := by
  cases codes with
  | nil => rfl
  | cons low codes => rw [joinSurrogates, if_neg (by omega)]

theorem joinSurrogates_pair {above below : Nat} (habove : above < 0x400) (hbelow : below < 0x400)
    (codes : List Nat) :
    joinSurrogates ((0xD800 + above) :: (0xDC00 + below) :: codes) =
      (0x10000 + above * 0x400 + below) :: joinSurrogates codes := by
  rw [joinSurrogates, if_pos (by omega), Nat.add_sub_cancel_left, Nat.add_sub_cancel_left]

theorem stringFrom_close (opening fuel position : Nat) (rest : Text) (found : List Nat) :
    stringFrom opening (fuel + 1) position ('"' :: rest) found =
      .ok (found.reverse, ⟨position + 1, rest⟩) := by
  rw [stringFrom.eq_def]
  exact if_pos rfl

theorem stringFrom_plain {c : Char} (hquote : c ≠ '"') (hbackslash : c ≠ '\\')
    (hcontrol : 32 ≤ c.toNat) (opening fuel position : Nat) (text : Text) (found : List Nat) :
    stringFrom opening (fuel + 1) position (c :: text) found =
      stringFrom opening fuel (position + 1) text (c.toNat :: found) := by
  rw [stringFrom.eq_def]
  dsimp only
  rw [if_neg hquote, if_neg hbackslash, if_neg (Nat.not_lt.mpr hcontrol)]

/-- An escape of four digits, with at least one character behind it. -/
theorem stringFrom_hex {digits text : Text} {code : Nat} (hdigits : HexText digits code)
    (htext : 0 < text.length) (opening fuel position : Nat) (found : List Nat) :
    stringFrom opening (fuel + 1) position ('\\' :: 'u' :: (digits ++ text)) found =
      stringFrom opening fuel (position + 6) text (code :: found) := by
  have hlength := hdigits.length_eq
  have hbehind : ¬ (digits ++ text).length < 5 := by
    rw [List.length_append]
    omega
  rw [stringFrom, if_neg (by decide), if_pos rfl, if_neg hbehind, ← hlength, List.take_left,
    List.drop_left, hdigits.hexCode?_eq]

/-- An escape of one letter. -/
theorem stringFrom_short {e : Char} {code : Nat} (hescape : (e, code) ∈ shortEscapes)
    (opening fuel position : Nat) (text : Text) (found : List Nat) :
    stringFrom opening (fuel + 1) position ('\\' :: e :: text) found =
      stringFrom opening fuel (position + 2) text (code :: found) := by
  have hcodes : ∀ escape ∈ shortEscapes, escape.1 ≠ 'u' ∧ escapeCode? escape.1 = some escape.2 := by
    decide
  obtain ⟨hu, hcode⟩ := hcodes _ hescape
  rw [stringFrom, if_neg (by decide), if_pos rfl, hcode]
  exact hu

/-- A string is read as units behind those that were found, and joined they are its code points. -/
def ReadsUnits (opening fuel position : Nat) (text : Text) (found codes : List Nat)
    (rest : Text) : Prop :=
  ∃ next units, stringFrom opening fuel position text found =
    .ok (found.reverse ++ units, ⟨next, rest⟩) ∧ joinSurrogates units = codes

/-- One step over a code point of its own. -/
theorem ReadsUnits.cons {opening fuel position behind code : Nat} {text tail rest : Text}
    {found codes : List Nat}
    (hstep : stringFrom opening (fuel + 1) position text found =
      stringFrom opening fuel behind tail (code :: found))
    (hcode : code < 0xD800 ∨ 0xDFFF < code)
    (h : ReadsUnits opening fuel behind tail (code :: found) codes rest) :
    ReadsUnits opening (fuel + 1) position text found (code :: codes) rest := by
  obtain ⟨next, units, hread, hjoin⟩ := h
  refine ⟨next, code :: units, ?_, ?_⟩
  · rw [hstep, hread, List.reverse_cons, List.append_assoc, List.singleton_append]
  · rw [joinSurrogates_cons hcode, hjoin]

/-- Every string is read in as many steps as it has characters. -/
theorem StringText.readsUnits {text rest : Text} {codes : List Nat}
    (h : StringText text codes rest) (opening : Nat) :
    ∀ fuel position found, text.length ≤ fuel →
      ReadsUnits opening (fuel + 1) position text found codes rest := by
  induction h with
  | close =>
    intro fuel position found _
    refine ⟨position + 1, [], ?_, rfl⟩
    rw [stringFrom_close, List.append_nil]
  | @plain c _ _ _ hquote hbackslash hcontrol _ ih =>
    rintro (_ | fuel) position found hfuel
    · exact absurd hfuel (Nat.not_succ_le_zero _)
    · have hcode : c.toNat < 0xD800 ∨ 0xDFFF < c.toNat := c.valid.imp_right And.left
      exact .cons (stringFrom_plain hquote hbackslash hcontrol _ _ _ _ _) hcode
        (ih fuel _ _ (Nat.le_of_succ_le_succ hfuel))
  | short hescape _ ih =>
    rintro (_ | fuel) position found hfuel
    · exact absurd hfuel (Nat.not_succ_le_zero _)
    · have hcodes : ∀ escape ∈ shortEscapes, escape.2 < 0xD800 := by decide
      simp only [List.length_cons] at hfuel
      exact .cons (stringFrom_short hescape _ _ _ _ _) (.inl (hcodes _ hescape))
        (ih fuel _ _ (by omega))
  | unit hdigits hcode htext ih =>
    rintro (_ | fuel) position found hfuel
    · exact absurd hfuel (Nat.not_succ_le_zero _)
    · simp only [List.length_cons, List.length_append] at hfuel
      exact .cons (stringFrom_hex hdigits (Nat.zero_lt_of_lt htext.length_lt) _ _ _ _)
        (isSurrogate_eq_false_iff.mp hcode) (ih fuel _ _ (by omega))
  | @pair _ _ _ _ above below _ hhigh habove hlow hbelow htext ih =>
    rintro (_ | _ | fuel) position found hfuel
    · exact absurd hfuel (Nat.not_succ_le_zero _)
    · simp only [List.length_cons, List.length_append] at hfuel
      omega
    · simp only [List.length_cons, List.length_append] at hfuel
      -- Neither half stands for a code point of its own: both are read before they are joined.
      obtain ⟨next, units, hread, hjoin⟩ :=
        ih fuel (position + 6 + 6) ((0xDC00 + below) :: (0xD800 + above) :: found) (by omega)
      refine ⟨next, (0xD800 + above) :: (0xDC00 + below) :: units, ?_, ?_⟩
      · rw [stringFrom_hex hhigh (List.length_pos_of_ne_nil (List.cons_ne_nil _ _)),
          stringFrom_hex hlow (Nat.zero_lt_of_lt htext.length_lt), hread, List.reverse_cons,
          List.reverse_cons, List.append_assoc, List.append_assoc, List.singleton_append,
          List.singleton_append]
      · rw [joinSurrogates_pair habove hbelow, hjoin]

theorem StringText.reads {text rest : Text} {codes : List Nat} (h : StringText text codes rest) :
    Reads readString text codes rest := by
  intro position
  obtain ⟨next, units, hread, hjoin⟩ :=
    h.readsUnits (position - 1) text.length position [] (Nat.le_refl _)
  refine ⟨next, ?_⟩
  rw [readString, hread, ← hjoin]
  rfl

/-! ## Numbers and words -/

/-- A text does not go on as a number would. -/
def EndsNumber (text : Text) : Prop :=
  ∀ c ∈ text.head?, c.isDigit = false ∧ c ≠ '.' ∧ c ≠ 'e' ∧ c ≠ 'E'

theorem Spaces.endsNumber {text rest : Text} (h : Spaces text rest) (hrest : EndsNumber rest) :
    EndsNumber text := by
  cases h with
  | none => exact hrest
  | cons hc _ =>
    have hspaces : ∀ c ∈ [' ', '\t', '\n', '\r'],
        c.isDigit = false ∧ c ≠ '.' ∧ c ≠ 'e' ∧ c ≠ 'E' := by simp
    intro d hd
    obtain rfl := Option.mem_some_iff.mp hd
    exact hspaces _ hc

theorem EndsNumber.takeWhile_isDigit {rest : Text} (h : EndsNumber rest) :
    rest.takeWhile Char.isDigit = [] := by
  cases rest with
  | nil => rfl
  | cons c rest => rw [List.takeWhile_cons, (h c rfl).1]; rfl

theorem EndsNumber.fractionDigits_eq {rest : Text} (h : EndsNumber rest) :
    fractionDigits rest = [] := by
  rw [fractionDigits]
  rintro tail rfl
  exact (h '.' rfl).2.1 rfl

theorem EndsNumber.exponentPart?_eq {rest : Text} (h : EndsNumber rest) :
    exponentPart? rest = none := by
  cases rest with
  | nil => rfl
  | cons c rest =>
    obtain ⟨-, -, he, hE⟩ := h c rfl
    rw [exponentPart?.eq_def]
    exact if_neg (not_or_intro he hE)

theorem IsNumeral.exists_cons {digits : Text} (h : IsNumeral digits) :
    ∃ c tail, digits = c :: tail ∧ c.isDigit = true := by
  obtain ⟨c, tail, rfl⟩ := List.exists_cons_of_ne_nil h.ne_nil
  exact ⟨c, tail, rfl, h.isDigit c List.mem_cons_self⟩

/-- All digits of a numeral are read, and no more. -/
theorem IsNumeral.integerDigits_eq {digits rest : Text} (h : IsNumeral digits)
    (hrest : EndsNumber rest) : integerDigits (digits ++ rest) = digits := by
  obtain ⟨c, digits, rfl⟩ := List.exists_cons_of_ne_nil h.ne_nil
  by_cases hzero : c = '0'
  · rw [h.leading (by rw [hzero]; rfl)]
    rfl
  · have hall : leadingDigits (c :: digits ++ rest) = c :: digits := by
      rw [leadingDigits, List.takeWhile_append_of_pos h.isDigit, hrest.takeWhile_isDigit,
        List.append_nil]
    rw [integerDigits]
    · exact hall
    · rintro tail heq
      exact hzero (List.cons.inj heq).1

theorem reads_readNumber_natural {digits rest : Text} (hdigits : IsNumeral digits)
    (hrest : EndsNumber rest) :
    Reads readNumber (digits ++ rest) (.int (Nat.ofDigitChars 10 digits 0)) rest := by
  intro position
  have hsign : ((digits ++ rest).head? == some '-') = false := by
    obtain ⟨c, tail, rfl, hc⟩ := hdigits.exists_cons
    have hne : c ≠ '-' := ne_of_isDigit hc rfl
    simpa using hne
  have hempty : digits.isEmpty = false := List.isEmpty_eq_false_iff.mpr hdigits.ne_nil
  refine ⟨position + digits.length, ?_⟩
  simp only [readNumber, hsign, Bool.false_eq_true, if_false, hdigits.integerDigits_eq hrest,
    hempty, List.drop_left, hrest.fractionDigits_eq, List.isEmpty_nil, if_true,
    hrest.exponentPart?_eq, Option.isNone_none, Bool.and_self, gt_iff_lt,
    Nat.not_lt.mpr hdigits.length_le, Option.map_none, Option.getD_none, Nat.add_zero,
    Nat.zero_add, Cursor.advance]
  rfl

theorem reads_readNumber_negative {digits rest : Text} (hdigits : IsNumeral digits)
    (hrest : EndsNumber rest) :
    Reads readNumber ('-' :: (digits ++ rest)) (.int (-(Nat.ofDigitChars 10 digits 0 : Int)))
      rest := by
  intro position
  have hempty : digits.isEmpty = false := List.isEmpty_eq_false_iff.mpr hdigits.ne_nil
  refine ⟨position + (1 + digits.length), ?_⟩
  simp only [readNumber, List.head?_cons, beq_self_eq_true, if_true, List.drop_succ_cons,
    List.drop_zero, hdigits.integerDigits_eq hrest, hempty, Bool.false_eq_true, if_false,
    List.drop_left, hrest.fractionDigits_eq, List.isEmpty_nil, hrest.exponentPart?_eq,
    Option.isNone_none, Bool.and_self, gt_iff_lt, Nat.not_lt.mpr hdigits.length_le,
    Option.map_none, Option.getD_none, Nat.add_zero, Cursor.advance, Nat.add_comm 1]
  rfl

theorem IntegerText.reads {text rest : Text} {value : Int} (h : IntegerText text value rest)
    (hrest : EndsNumber rest) : Reads readNumber text (.int value) rest := by
  cases h with
  | natural hdigits => exact reads_readNumber_natural hdigits hrest
  | negative hdigits => exact reads_readNumber_negative hdigits hrest

/-- A digit opens no word, neither at the start of a text nor behind a minus sign. -/
theorem IntegerText.find?_words_eq {text rest : Text} {value : Int}
    (h : IntegerText text value rest) :
    (words.find? fun (word, _) => Text.startsWith text word) = none := by
  cases h with
  | natural hdigits =>
    obtain ⟨c, tail, rfl, hc⟩ := hdigits.exists_cons
    simp [words, Text.startsWith, Text.after?, (ne_of_isDigit hc (d := 'n') rfl).symm,
      (ne_of_isDigit hc (d := 't') rfl).symm, (ne_of_isDigit hc (d := 'f') rfl).symm,
      (ne_of_isDigit hc (d := 'N') rfl).symm, (ne_of_isDigit hc (d := 'I') rfl).symm,
      (ne_of_isDigit hc (d := '-') rfl).symm]
  | negative hdigits =>
    obtain ⟨c, tail, rfl, hc⟩ := hdigits.exists_cons
    simp [words, Text.startsWith, Text.after?, (ne_of_isDigit hc (d := 'I') rfl).symm]

theorem IntegerText.reads_scalar {text rest : Text} {value : Int} (h : IntegerText text value rest)
    (hrest : EndsNumber rest) : Reads readScalar text (.int value) rest := by
  intro position
  rw [readScalar, h.find?_words_eq]
  exact h.reads hrest position

/-! ## Values -/

/-- How the text of a value begins: neither with white space, nor as an array ends, nor with a byte
order mark. -/
def BeginsValue (text : Text) : Prop :=
  ∃ c tail, text = c :: tail ∧ Cursor.isSpace c = false ∧ c ≠ ']' ∧ c ≠ Char.ofNat 0xFEFF

theorem BeginsValue.endsSpaces {text : Text} (h : BeginsValue text) : EndsSpaces text := by
  obtain ⟨c, tail, rfl, hspace, -, -⟩ := h
  exact endsSpaces_cons hspace tail

theorem beginsValue_of_isDigit {c : Char} (hc : c.isDigit = true) (text : Text) :
    BeginsValue (c :: text) := by
  refine ⟨c, text, rfl, ?_, ne_of_isDigit hc rfl, ne_of_isDigit hc (by decide)⟩
  simp [Cursor.isSpace, ne_of_isDigit hc (d := ' ') rfl, ne_of_isDigit hc (d := '\t') rfl,
    ne_of_isDigit hc (d := '\n') rfl, ne_of_isDigit hc (d := '\r') rfl]

theorem ValueText.beginsValue {text rest : Text} {value : Json} (h : ValueText text value rest) :
    BeginsValue text := by
  cases h with
  | null => exact ⟨_, _, rfl, by decide⟩
  | true => exact ⟨_, _, rfl, by decide⟩
  | false => exact ⟨_, _, rfl, by decide⟩
  | int htext =>
    cases htext with
    | natural hdigits =>
      obtain ⟨c, tail, rfl, hc⟩ := hdigits.exists_cons
      exact beginsValue_of_isDigit hc _
    | negative => exact ⟨_, _, rfl, by decide⟩
  | string => exact ⟨_, _, rfl, by decide⟩
  | emptyArray => exact ⟨_, _, rfl, by decide⟩
  | array => exact ⟨_, _, rfl, by decide⟩
  | emptyObject => exact ⟨_, _, rfl, by decide⟩
  | object => exact ⟨_, _, rfl, by decide⟩

theorem ElementsText.beginsValue {text rest : Text} {elements : List Json}
    (h : ElementsText text elements rest) : BeginsValue text := by
  cases h with
  | last hvalue => exact hvalue.beginsValue
  | cons hvalue => exact hvalue.beginsValue

theorem MembersText.exists_cons {text rest : Text} {members : List (List Nat × Json)}
    (h : MembersText text members rest) : ∃ tail, text = '"' :: tail := by
  cases h with
  | last hmember =>
    cases hmember
    exact ⟨_, rfl⟩
  | cons hmember =>
    cases hmember
    exact ⟨_, rfl⟩

/-- Behind white space, a character that no number has ends a number. -/
theorem Spaces.endsNumber_of_sign {text rest : Text} {c : Char} (h : Spaces text (c :: rest))
    (hc : c.isDigit = false ∧ c ≠ '.' ∧ c ≠ 'e' ∧ c ≠ 'E') : EndsNumber text := by
  refine h.endsNumber ?_
  intro d hd
  rwa [← Option.mem_some_iff.mp hd]

/-- A word or a number is read where no string, array or object begins. -/
theorem reads_readValue_scalar {c : Char} {text rest : Text} {value : Json}
    (hquote : c ≠ '"') (hbrace : c ≠ '{') (hbracket : c ≠ '[')
    (h : Reads readScalar (c :: text) value rest) (fuel : Nat) :
    Reads (readValue (fuel + 1)) (c :: text) value rest := by
  intro position
  rw [readValue]
  dsimp only
  split
  · next heq => exact absurd (List.cons.inj heq).1 hquote
  · next heq => exact absurd (List.cons.inj heq).1 hbrace
  · next heq => exact absurd (List.cons.inj heq).1 hbracket
  · exact h position

theorem reads_readValue_string {text rest : Text} {codes : List Nat}
    (h : StringText text codes rest) (fuel : Nat) :
    Reads (readValue (fuel + 1)) ('"' :: text) (.string codes) rest := by
  intro position
  obtain ⟨next, hread⟩ := h.reads (position + 1)
  refine ⟨next, ?_⟩
  simp only [readValue, Cursor.advance, List.drop_succ_cons, List.drop_zero, hread]
  rfl

theorem IntegerText.reads_value {text rest : Text} {value : Int} (h : IntegerText text value rest)
    (hrest : EndsNumber rest) (fuel : Nat) :
    Reads (readValue (fuel + 1)) text (.int value) rest := by
  have hread := h.reads_scalar hrest
  cases h with
  | natural hdigits =>
    obtain ⟨c, tail, rfl, hc⟩ := hdigits.exists_cons
    exact reads_readValue_scalar (ne_of_isDigit hc rfl) (ne_of_isDigit hc rfl)
      (ne_of_isDigit hc rfl) hread fuel
  | negative => exact reads_readValue_scalar (by decide) (by decide) (by decide) hread fuel

/-- What is done behind a member of an object. -/
def afterMember (fuel : Nat) (members : List (List Nat × Json)) (cursor : Cursor) :
    Except FaultAt (Json × Cursor) :=
  match cursor.rest with
  | '}' :: _ => .ok (.object members, cursor.advance 1)
  | ',' :: _ => readMembers fuel (cursor.advance 1).skipSpace members
  | _ => cursor.fail .expectedComma

/-- The step over one member, once its value can be read. -/
theorem readMembers_eq_afterMember {text colon next start close stop : Text} {key : List Nat}
    {value : Json} {fuel : Nat} (hkey : StringText text key colon)
    (hcolon : Spaces colon (':' :: next)) (hspaces : Spaces next start)
    (hstart : EndsSpaces start) (hvalue : Reads (readValue fuel) start value close)
    (hclose : Spaces close stop) (hstop : EndsSpaces stop) (position : Nat)
    (found : List (List Nat × Json)) :
    ∃ behind, readMembers (fuel + 1) ⟨position, '"' :: text⟩ found =
      afterMember fuel (put key value found) ⟨behind, stop⟩ := by
  obtain ⟨p₁, h₁⟩ := hkey.reads (position + 1)
  obtain ⟨p₂, h₂⟩ := hcolon.skipSpace_eq (endsSpaces_cons (by decide) next) p₁
  obtain ⟨p₃, h₃⟩ := hspaces.skipSpace_eq hstart (p₂ + 1)
  obtain ⟨p₄, h₄⟩ := hvalue p₃
  obtain ⟨p₅, h₅⟩ := hclose.skipSpace_eq hstop p₄
  refine ⟨p₅, ?_⟩
  simp only [readMembers, Cursor.advance, List.drop_succ_cons, List.drop_zero, bind, Except.bind,
    h₁, h₂, h₃, h₄, h₅]
  rfl

-- The induction is on the derivation. Two steps to a character are enough: each value takes one for
-- itself and one for its place in the array or object around it.
mutual

/-- Values are read, if the rest goes on with no number and there are enough steps. -/
theorem ValueText.reads {text rest : Text} {value : Json} (h : ValueText text value rest)
    (hrest : EndsNumber rest) (fuel : Nat) (hfuel : 2 * text.length ≤ fuel) :
    Reads (readValue fuel) text value rest := by
  have hpos : 0 < fuel := by
    have := h.length_lt
    omega
  obtain ⟨fuel, rfl⟩ := Nat.exists_eq_add_one.mpr hpos
  match h with
  | .null =>
    exact reads_readValue_scalar (by decide) (by decide) (by decide)
      (fun position => ⟨position + 4, rfl⟩) fuel
  | .true =>
    exact reads_readValue_scalar (by decide) (by decide) (by decide)
      (fun position => ⟨position + 4, rfl⟩) fuel
  | .false =>
    exact reads_readValue_scalar (by decide) (by decide) (by decide)
      (fun position => ⟨position + 5, rfl⟩) fuel
  | .int htext => exact htext.reads_value hrest fuel
  | .string htext => exact reads_readValue_string htext fuel
  | .emptyArray hspaces =>
    intro position
    obtain ⟨next, hskip⟩ := hspaces.skipSpace_eq (endsSpaces_cons (by decide) rest) (position + 1)
    refine ⟨next + 1, ?_⟩
    simp only [readValue, Cursor.advance, List.drop_succ_cons, List.drop_zero, hskip]
  | .array hspaces helements =>
    intro position
    have hbegins := helements.beginsValue
    obtain ⟨next, hskip⟩ := hspaces.skipSpace_eq hbegins.endsSpaces (position + 1)
    have hlength := hspaces.length_le
    rw [List.length_cons] at hfuel
    have hread := helements.reads fuel (by omega) []
    obtain ⟨c, tail, rfl, -, hc, -⟩ := hbegins
    simp only [readValue, Cursor.advance, List.drop_succ_cons, List.drop_zero, hskip]
    split
    · next heq => exact absurd (List.cons.inj heq).1 hc
    · exact hread next
  | .emptyObject hspaces =>
    intro position
    obtain ⟨next, hskip⟩ := hspaces.skipSpace_eq (endsSpaces_cons (by decide) rest) (position + 1)
    refine ⟨next + 1, ?_⟩
    simp only [readValue, Cursor.advance, List.drop_succ_cons, List.drop_zero, hskip]
  | .object hspaces hmembers =>
    intro position
    have hlength := hspaces.length_le
    rw [List.length_cons] at hfuel
    have hread := hmembers.reads fuel (by omega) []
    obtain ⟨tail, rfl⟩ := hmembers.exists_cons
    obtain ⟨next, hskip⟩ := hspaces.skipSpace_eq (endsSpaces_cons (by decide) tail) (position + 1)
    simp only [readValue, Cursor.advance, List.drop_succ_cons, List.drop_zero, hskip]
    exact hread next

theorem ElementsText.reads {text rest : Text} {elements : List Json}
    (h : ElementsText text elements rest) (fuel : Nat) (hfuel : 2 * text.length + 1 ≤ fuel)
    (found : List Json) :
    Reads (fun cursor => readElements fuel cursor found) text (.array (found.reverse ++ elements))
      rest := by
  obtain ⟨fuel, rfl⟩ := Nat.exists_eq_add_one.mpr (Nat.zero_lt_of_lt hfuel)
  intro position
  match h with
  | .last hvalue hclose =>
    obtain ⟨p₁, h₁⟩ := hvalue.reads (hclose.endsNumber_of_sign (by decide)) fuel
      (by omega) position
    obtain ⟨p₂, h₂⟩ := hclose.skipSpace_eq (endsSpaces_cons (by decide) rest) p₁
    refine ⟨p₂ + 1, ?_⟩
    dsimp only
    rw [readElements, h₁]
    simp only [bind, Except.bind, h₂, List.reverse_cons]
    rfl
  | @ElementsText.cons _ _ _ _ _ first _ hvalue hcomma hspaces hothers =>
    obtain ⟨p₁, h₁⟩ := hvalue.reads (hcomma.endsNumber_of_sign (by decide)) fuel
      (by omega) position
    obtain ⟨p₂, h₂⟩ := hcomma.skipSpace_eq (endsSpaces_cons (by decide) _) p₁
    obtain ⟨p₃, h₃⟩ := hspaces.skipSpace_eq hothers.beginsValue.endsSpaces (p₂ + 1)
    have hlength := hvalue.length_lt
    have hlength' := hcomma.length_lt
    have hlength'' := hspaces.length_le
    obtain ⟨p₄, h₄⟩ := hothers.reads fuel (by omega) (first :: found) p₃
    refine ⟨p₄, ?_⟩
    dsimp only at h₄ ⊢
    rw [readElements, h₁]
    simp only [bind, Except.bind, h₂, Cursor.advance, List.drop_succ_cons, List.drop_zero, h₃, h₄,
      List.reverse_cons, List.append_assoc, List.singleton_append]

theorem MembersText.reads {text rest : Text} {members : List (List Nat × Json)}
    (h : MembersText text members rest) (fuel : Nat) (hfuel : 2 * text.length + 1 ≤ fuel)
    (found : List (List Nat × Json)) :
    Reads (fun cursor => readMembers fuel cursor found) text
      (.object (members.foldl (fun found member => put member.1 member.2 found) found)) rest := by
  obtain ⟨fuel, rfl⟩ := Nat.exists_eq_add_one.mpr (Nat.zero_lt_of_lt hfuel)
  intro position
  match h with
  | .last hmember hclose =>
    obtain ⟨next, hread⟩ := hmember.reads fuel (by omega)
      (hclose.endsNumber_of_sign (by decide)) hclose (endsSpaces_cons (by decide) rest) position
      found
    exact ⟨next + 1, hread⟩
  | .cons hmember hcomma hspaces hothers =>
    obtain ⟨p₁, h₁⟩ := hmember.reads fuel (by omega)
      (hcomma.endsNumber_of_sign (by decide)) hcomma (endsSpaces_cons (by decide) _) position found
    have hlength := hmember.length_lt
    have hlength' := hcomma.length_lt
    have hlength'' := hspaces.length_le
    have hread := hothers.reads fuel (by omega)
    obtain ⟨tail, rfl⟩ := hothers.exists_cons
    obtain ⟨p₂, h₂⟩ := hspaces.skipSpace_eq (endsSpaces_cons (by decide) tail) (p₁ + 1)
    obtain ⟨p₃, h₃⟩ := hread _ p₂
    refine ⟨p₃, ?_⟩
    simp only [h₁, afterMember, Cursor.advance, List.drop_succ_cons, List.drop_zero, h₂]
    exact h₃

theorem MemberText.reads {text close stop : Text} {member : List Nat × Json}
    (h : MemberText text member close) (fuel : Nat) (hfuel : 2 * text.length ≤ fuel)
    (hnumber : EndsNumber close) (hclose : Spaces close stop) (hstop : EndsSpaces stop)
    (position : Nat) (found : List (List Nat × Json)) :
    ∃ behind, readMembers (fuel + 1) ⟨position, text⟩ found =
      afterMember fuel (put member.1 member.2 found) ⟨behind, stop⟩ := by
  match h with
  | .mk hkey hcolon hspaces hvalue =>
    have hlength := hkey.length_lt
    have hlength' := hcolon.length_lt
    have hlength'' := hspaces.length_le
    rw [List.length_cons] at hfuel
    have hread := hvalue.reads hnumber fuel (by omega)
    exact readMembers_eq_afterMember hkey hcolon hspaces hvalue.beginsValue.endsSpaces hread hclose
      hstop position found

end

/-- Every text is read, and as the value it stands for. -/
theorem parse_of_isTextOf {text : Text} {value : Json} (h : IsTextOf text value) :
    parse text = .ok value := by
  obtain ⟨start, stop, hstart, hvalue, hstop⟩ := h
  have hmark : text.head? ≠ some (Char.ofNat 0xFEFF) := by
    cases hstart with
    | none =>
      obtain ⟨c, tail, rfl, -, -, hc⟩ := hvalue.beginsValue
      exact fun heq => hc (Option.some.inj heq)
    | @cons c _ _ hc _ =>
      have hspaces : ∀ c ∈ [' ', '\t', '\n', '\r'], c ≠ Char.ofNat 0xFEFF := by simp
      exact fun heq => hspaces c hc (Option.some.inj heq)
  have hlength := hstart.length_le
  have hend : EndsNumber stop := hstop.endsNumber (fun c hc => by cases hc)
  have hnil : EndsSpaces [] := fun c hc => by cases hc
  obtain ⟨p₁, h₁⟩ := hstart.skipSpace_eq hvalue.beginsValue.endsSpaces 0
  obtain ⟨p₂, h₂⟩ := hvalue.reads hend (2 * text.length + 2) (by omega) p₁
  obtain ⟨p₃, h₃⟩ := hstop.skipSpace_eq hnil p₂
  rw [parse, if_neg hmark, h₁]
  simp only [h₂, bind, Except.bind, h₃]
  rfl

end Namespacer.Json
