import Namespacer.Json.Printer
import Namespacer.Proofs.JsonReading

/-!
# What is printed is read back

The printed form of a plain value is one of its texts: each part of it falls under one rule of the
grammar. As every text is read as the value it stands for, reading undoes printing.

* `Json.IsPlain.valueText`: a printed value is a text of the value, whatever follows it.
* `Json.IsPlain.parse_print`: reading undoes printing.
* `Json.IsPlain.isValidChar`: nothing is printed that is no character.
* `Json.Prints`: a surrogate in a string or in a key is printed as it is.
-/

namespace Namespacer.Json

theorem map_ofNat_codes (text : Text) : (codes text).map Char.ofNat = text := by
  rw [codes, List.map_map]
  exact List.map_id'' Char.ofNat_toNat text

theorem isValidChar_codes (text : Text) : ∀ code ∈ codes text, code.isValidChar := by
  intro code hcode
  obtain ⟨c, -, rfl⟩ := List.mem_map.mp hcode
  exact c.valid

theorem toNat_ofNat_of_isValidChar {code : Nat} (h : code.isValidChar) :
    (Char.ofNat code).toNat = code := by
  rw [Char.ofNat, dif_pos h]
  rfl

/-! ## White space -/

theorem spaces_newLine (depth : Nat) (rest : Text) :
    Spaces ((newLine depth).map Char.ofNat ++ rest) rest := by
  rw [newLine, List.map_cons, List.cons_append, List.map_replicate]
  refine .cons (by decide) ?_
  induction 4 * depth with
  | zero => exact .none
  | succ count ih => exact .cons (by decide) ih

theorem isValidChar_newLine (depth : Nat) : ∀ code ∈ newLine depth, code.isValidChar := by
  refine List.forall_mem_cons.mpr ⟨by decide, ?_⟩
  intro code hcode
  rw [List.eq_of_mem_replicate hcode]
  decide

/-! ## Integers -/

theorem head?_toDigits {n : Nat} (hn : 0 < n) : (Nat.toDigits 10 n).head? ≠ some '0' := by
  induction n using Nat.strongRecOn with
  | ind n ih =>
    rw [Nat.toDigits_eq_if (by decide)]
    split
    · next hlt =>
      have hdigits : ∀ m < 10, 0 < m → Nat.digitChar m ≠ '0' := by decide
      exact fun heq => hdigits n hlt hn (Option.some.inj heq)
    · rw [List.head?_append_of_ne_nil _ Nat.toDigits_ne_nil]
      exact ih (n / 10) (by omega) (by omega)

theorem isNumeral_toDigits {n : Nat} (h : (Nat.toDigits 10 n).length ≤ maxDigits) :
    IsNumeral (Nat.toDigits 10 n) where
  ne_nil := Nat.toDigits_ne_nil
  isDigit _ hc := Nat.isDigit_of_mem_toDigits (by decide) (by decide) hc
  leading hzero := by
    obtain rfl | hn := Nat.eq_zero_or_pos n
    · rfl
    · exact absurd hzero (head?_toDigits hn)
  length_le := h

theorem integerText_ofInt {value : Int} (h : (Nat.toDigits 10 value.natAbs).length ≤ maxDigits)
    (rest : Text) : IntegerText (Text.ofInt value ++ rest) value rest := by
  have hdigits := isNumeral_toDigits h
  cases value with
  | ofNat n =>
    have hread : IntegerText (Nat.toDigits 10 n ++ rest) _ rest := .natural hdigits
    rw [Nat.ofDigitChars_ten_toDigits] at hread
    rw [Text.ofInt, Text.ofNat, Nat.toString_eq_ofList_toDigits, String.toList_ofList]
    exact hread
  | negSucc n =>
    have hread : IntegerText ('-' :: (Nat.toDigits 10 (n + 1) ++ rest)) _ rest := .negative hdigits
    rw [Nat.ofDigitChars_ten_toDigits] at hread
    rw [Text.ofInt, Text.ofNat, Nat.toString_eq_ofList_toDigits, String.toList_ofList]
    exact hread

/-! ## Strings -/

theorem hexText_hex {code : Nat} (h : code < 0x10000) : HexText (Text.hex 4 code) code := by
  have hdigits : ∀ v < 16, Text.hexDigit v = Nat.digitChar v := by decide
  have hdigit (n : Nat) : IsHexDigit (Text.hexDigit (n % 16)) (n % 16) :=
    ⟨Nat.mod_lt n (by decide), .inl (hdigits _ (Nat.mod_lt n (by decide)))⟩
  have hread := HexText.mk (hdigit (code / 16 / 16 / 16)) (hdigit (code / 16 / 16))
    (hdigit (code / 16)) (hdigit code)
  have hcode : 4096 * (code / 16 / 16 / 16 % 16) + 256 * (code / 16 / 16 % 16) +
      16 * (code / 16 % 16) + code % 16 = code := by omega
  rw [hcode] at hread
  exact hread

/-- How a code point is printed: by a short escape, by four digits or as itself. -/
theorem escapedCode_cases (code : Nat) :
    (∃ escape ∈ shortEscapes, escape.2 = code ∧ escapedCode code = codes ['\\', escape.1]) ∨
      (code < 32 ∧ escapedCode code = codes ('\\' :: 'u' :: Text.hex 4 code)) ∨
        (32 ≤ code ∧ code ≠ 34 ∧ code ≠ 92 ∧ escapedCode code = [code]) := by
  by_cases hshort : code ∈ [34, 92, 10, 13, 9, 8, 12]
  · have hescapes : ∀ code ∈ [34, 92, 10, 13, 9, 8, 12], ∃ escape ∈ shortEscapes,
        escape.2 = code ∧ escapedCode code = codes ['\\', escape.1] := by decide
    exact .inl (hescapes code hshort)
  · simp only [List.mem_cons, List.not_mem_nil, or_false, not_or] at hshort
    obtain ⟨h₁, h₂, h₃, h₄, h₅, h₆, h₇⟩ := hshort
    rw [escapedCode, if_neg h₁, if_neg h₂, if_neg h₃, if_neg h₄, if_neg h₅, if_neg h₆, if_neg h₇]
    by_cases hcontrol : code < 32
    · rw [if_pos hcontrol]
      exact .inr (.inl ⟨hcontrol, rfl⟩)
    · rw [if_neg hcontrol]
      exact .inr (.inr ⟨Nat.not_lt.mp hcontrol, h₁, h₂, rfl⟩)

/-- A printed code point goes before a string. -/
theorem stringText_escapedCode {code : Nat} (hcode : code.isValidChar) {text rest : Text}
    {found : List Nat} (h : StringText text found rest) :
    StringText ((escapedCode code).map Char.ofNat ++ text) (code :: found) rest := by
  obtain ⟨⟨e, value⟩, hescape, rfl, heq⟩ | ⟨hcontrol, heq⟩ | ⟨hcontrol, hquote, hbackslash, heq⟩ :=
    escapedCode_cases code
  · rw [heq, map_ofNat_codes]
    exact .short hescape h
  · rw [heq, map_ofNat_codes]
    exact .unit (hexText_hex (by omega)) (isSurrogate_eq_false_iff.mpr (by omega)) h
  · have hnat := toNat_ofNat_of_isValidChar hcode
    have hne {c : Char} (hc : code ≠ c.toNat) : Char.ofNat code ≠ c := by
      rintro rfl
      exact hc hnat.symm
    have hplain := StringText.plain (hne hquote) (hne hbackslash) (by omega) h
    rw [hnat] at hplain
    rw [heq]
    exact hplain

theorem isValidChar_escapedCode {code : Nat} (hcode : code.isValidChar) :
    ∀ unit ∈ escapedCode code, unit.isValidChar := by
  obtain ⟨_, _, _, heq⟩ | ⟨_, heq⟩ | ⟨_, _, _, heq⟩ := escapedCode_cases code
  · rw [heq]
    exact isValidChar_codes _
  · rw [heq]
    exact isValidChar_codes _
  · rw [heq]
    exact List.forall_mem_singleton.mpr hcode

theorem stringText_printString {text : List Nat} (h : ∀ code ∈ text, code.isValidChar)
    (rest : Text) : ∃ behind, (printString text).map Char.ofNat ++ rest = '"' :: behind ∧
      StringText behind text rest := by
  have hread : StringText ((text.flatMap escapedCode).map Char.ofNat ++ '"' :: rest) text rest := by
    induction text with
    | nil => exact .close
    | cons code text ih =>
      rw [List.forall_mem_cons] at h
      rw [List.flatMap_cons, List.map_append, List.append_assoc]
      exact stringText_escapedCode h.1 (ih h.2)
  refine ⟨_, ?_, hread⟩
  simp only [printString, List.map_cons, List.map_append, List.cons_append, List.append_assoc]
  rfl

theorem isValidChar_printString {text : List Nat} (h : ∀ code ∈ text, code.isValidChar) :
    ∀ code ∈ printString text, code.isValidChar := by
  rw [printString, List.cons_append, List.forall_mem_cons, List.forall_mem_append]
  refine ⟨by decide, ?_, by decide⟩
  intro unit hunit
  obtain ⟨code, hcode, hunit⟩ := List.mem_flatMap.mp hunit
  exact isValidChar_escapedCode (h code hcode) unit hunit

/-! ## Arrays and objects -/

theorem put_of_not_mem {key : List Nat} {members : List (List Nat × Json)}
    (h : key ∉ members.map (·.1)) (value : Json) :
    put key value members = members ++ [(key, value)] := by
  induction members with
  | nil => rfl
  | cons other members ih =>
    rw [List.map_cons, List.mem_cons, not_or] at h
    rw [put, if_neg (Ne.symm h.1), ih h.2, List.cons_append]

theorem foldl_put_eq {members found : List (List Nat × Json)}
    (h : ((found ++ members).map (·.1)).Nodup) :
    members.foldl (fun found member => put member.1 member.2 found) found = found ++ members := by
  induction members generalizing found with
  | nil => exact (List.append_nil found).symm
  | cons member members ih =>
    have hmember : member.1 ∉ found.map (·.1) := by
      rw [List.map_append, List.nodup_append] at h
      exact fun hin => h.2.2 _ hin _ List.mem_cons_self rfl
    rw [List.foldl_cons, put_of_not_mem hmember, ih (by simpa using h), List.append_assoc,
      List.singleton_append]

/-- If no key is repeated, all members stay in their places. -/
theorem gather_eq {members : List (List Nat × Json)} (h : (members.map (·.1)).Nodup) :
    gather members = members :=
  foldl_put_eq h

/-- The printed form of a value is a text of it, at every depth and before every rest. -/
def PrintsWell (value : Json) : Prop :=
  ∀ depth rest, ValueText ((printAt depth value).map Char.ofNat ++ rest) value rest

theorem elementsText_print {first : Json} {others : List Json}
    (h : ∀ value ∈ first :: others, PrintsWell value) (inner outer : Nat) (rest : Text) :
    ElementsText ((printAt inner first).map Char.ofNat ++
      ((printElements inner others).map Char.ofNat ++
        ((newLine outer).map Char.ofNat ++ ']' :: rest))) (first :: others) rest := by
  induction others generalizing first with
  | nil => exact .last (h first List.mem_cons_self inner _) (spaces_newLine outer _)
  | cons second others ih =>
    rw [List.forall_mem_cons] at h
    simp only [printElements, List.map_append, List.map_cons, List.cons_append, List.append_assoc]
    exact .cons (h.1 inner _) .none (spaces_newLine inner _) (ih h.2)

/-- The printed form of a member of an object. -/
theorem memberText_print {key : List Nat} {value : Json} (hkey : ∀ code ∈ key, code.isValidChar)
    (hvalue : PrintsWell value) (depth : Nat) (rest : Text) :
    MemberText ((printString key).map Char.ofNat ++ ((codes ": ").map Char.ofNat ++
      ((printAt depth value).map Char.ofNat ++ rest))) (key, value) rest := by
  obtain ⟨behind, heq, hread⟩ := stringText_printString hkey
    ((codes ": ").map Char.ofNat ++ ((printAt depth value).map Char.ofNat ++ rest))
  rw [heq]
  exact .mk hread .none (.cons (by decide) .none) (hvalue depth rest)

theorem membersText_print {key : List Nat} {value : Json} {others : List (List Nat × Json)}
    (h : ∀ member ∈ (key, value) :: others,
      (∀ code ∈ member.1, code.isValidChar) ∧ PrintsWell member.2) (inner outer : Nat)
    (rest : Text) :
    MembersText ((printString key).map Char.ofNat ++ ((codes ": ").map Char.ofNat ++
      ((printAt inner value).map Char.ofNat ++ ((printMembers inner others).map Char.ofNat ++
        ((newLine outer).map Char.ofNat ++ '}' :: rest))))) ((key, value) :: others) rest := by
  induction others generalizing key value with
  | nil =>
    obtain ⟨hkey, hvalue⟩ := h _ List.mem_cons_self
    exact .last (memberText_print hkey hvalue inner _) (spaces_newLine outer _)
  | cons second others ih =>
    rw [List.forall_mem_cons] at h
    simp only [printMembers, List.map_append, List.map_cons, List.cons_append, List.append_assoc]
    exact .cons (memberText_print h.1.1 h.1.2 inner _) .none (spaces_newLine inner _) (ih h.2)

/-! ## Values -/

theorem IsPlain.printsWell {value : Json} (h : IsPlain value) : PrintsWell value := by
  induction h with
  | null => exact fun _ _ => .null
  | @bool value =>
    intro depth rest
    cases value with
    | false => exact .false
    | true => exact .true
  | int hdigits =>
    intro depth rest
    rw [printAt, map_ofNat_codes]
    exact .int (integerText_ofInt hdigits rest)
  | string hcodes =>
    intro depth rest
    obtain ⟨behind, heq, hread⟩ := stringText_printString hcodes rest
    rw [printAt, heq]
    exact .string hread
  | @array elements _ ih =>
    intro depth rest
    cases elements with
    | nil => exact .emptyArray .none
    | cons first others =>
      simp only [printAt, List.map_append, List.map_cons, List.map_nil, List.cons_append,
        List.append_assoc, List.nil_append]
      exact .array (spaces_newLine _ _) (elementsText_print ih (depth + 1) depth rest)
  | @object members hnodup hkeys _ ih =>
    intro depth rest
    rw [← gather_eq hnodup]
    cases members with
    | nil => exact .emptyObject .none
    | cons member others =>
      obtain ⟨key, value⟩ := member
      rw [gather_eq hnodup]
      simp only [printAt, List.map_append, List.map_cons, List.map_nil, List.cons_append,
        List.append_assoc, List.nil_append]
      have hmembers := membersText_print (fun member hm => ⟨hkeys member hm, ih member hm⟩)
        (depth + 1) depth rest
      have hread := ValueText.object (spaces_newLine (depth + 1) _) hmembers
      rwa [gather_eq hnodup] at hread

theorem isValidChar_printElements {elements : List Json} {depth : Nat}
    (h : ∀ value ∈ elements, ∀ code ∈ printAt depth value, code.isValidChar) :
    ∀ code ∈ printElements depth elements, code.isValidChar := by
  induction elements with
  | nil => exact List.forall_mem_nil _
  | cons first others ih =>
    rw [List.forall_mem_cons] at h
    simp only [printElements, List.cons_append, List.forall_mem_cons, List.forall_mem_append]
    exact ⟨by decide, ⟨isValidChar_newLine depth, h.1⟩, ih h.2⟩

theorem isValidChar_printMembers {members : List (List Nat × Json)} {depth : Nat}
    (hkeys : ∀ member ∈ members, ∀ code ∈ member.1, code.isValidChar)
    (hvalues : ∀ member ∈ members, ∀ code ∈ printAt depth member.2, code.isValidChar) :
    ∀ code ∈ printMembers depth members, code.isValidChar := by
  induction members with
  | nil => exact List.forall_mem_nil _
  | cons first others ih =>
    rw [List.forall_mem_cons] at hkeys hvalues
    simp only [printMembers, List.cons_append, List.forall_mem_cons, List.forall_mem_append]
    exact ⟨by decide, ⟨⟨⟨isValidChar_newLine depth, isValidChar_printString hkeys.1⟩,
      isValidChar_codes _⟩, hvalues.1⟩, ih hkeys.2 hvalues.2⟩

/-- Only characters are printed. -/
theorem IsPlain.isValidChar {value : Json} (h : IsPlain value) (depth : Nat) :
    ∀ code ∈ printAt depth value, code.isValidChar := by
  induction h generalizing depth with
  | null => exact isValidChar_codes _
  | bool => exact isValidChar_codes _
  | int => exact isValidChar_codes _
  | string hcodes => exact isValidChar_printString hcodes
  | @array elements _ ih =>
    cases elements with
    | nil => exact isValidChar_codes _
    | cons first others =>
      rw [List.forall_mem_cons] at ih
      have hothers := isValidChar_printElements fun value hvalue => ih.2 value hvalue (depth + 1)
      simp only [printAt, List.cons_append, List.forall_mem_cons, List.forall_mem_append]
      exact ⟨by decide, ⟨⟨⟨isValidChar_newLine _, ih.1 _⟩, hothers⟩, isValidChar_newLine _⟩,
        by decide⟩
  | @object members _ hkeys _ ih =>
    cases members with
    | nil => exact isValidChar_codes _
    | cons first others =>
      rw [List.forall_mem_cons] at hkeys ih
      have hothers := isValidChar_printMembers hkeys.2
        fun member hmember => ih.2 member hmember (depth + 1)
      simp only [printAt, List.cons_append, List.forall_mem_cons, List.forall_mem_append]
      exact ⟨by decide, ⟨⟨⟨⟨⟨isValidChar_newLine _, isValidChar_printString hkeys.1⟩,
        isValidChar_codes _⟩, ih.1 _⟩, hothers⟩, isValidChar_newLine _⟩, by decide⟩

/-- What is printed, with white space behind it, is a text of the value. -/
theorem IsPlain.isTextOf {value : Json} (h : IsPlain value) {blanks : Text}
    (hblanks : Spaces blanks []) : IsTextOf ((print value).map Char.ofNat ++ blanks) value :=
  ⟨_, blanks, .none, h.printsWell 0 blanks, hblanks⟩

/-- Reading undoes printing. -/
theorem IsPlain.parse_print {value : Json} (h : IsPlain value) :
    parse ((print value).map Char.ofNat) = .ok value := by
  have htext := h.isTextOf .none
  rw [List.append_nil] at htext
  exact parse_of_isTextOf htext

/-! ## Surrogates -/

/-- Whether a code point is among those of a printed value, at whatever depth. -/
def Prints (code : Nat) (value : Json) : Prop := ∀ depth, code ∈ printAt depth value

/-- Surrogates are not escaped. -/
theorem mem_printString {code : Nat} {text : List Nat} (hsurrogate : Text.isSurrogate code = true)
    (h : code ∈ text) : code ∈ printString text := by
  have hself : code ∈ escapedCode code := by
    simp only [Text.isSurrogate, Bool.and_eq_true, decide_eq_true_eq] at hsurrogate
    obtain ⟨escape, hescape, heq, -⟩ | ⟨hcontrol, -⟩ | ⟨-, -, -, heq⟩ := escapedCode_cases code
    · have hlow : ∀ escape ∈ shortEscapes, escape.2 < 0xD800 := by decide
      have := hlow escape hescape
      omega
    · omega
    · simp [heq]
  rw [printString, List.cons_append]
  refine List.mem_cons_of_mem _ (List.mem_append_left _ ?_)
  exact List.mem_flatMap.mpr ⟨code, h, hself⟩

theorem mem_printMembers {code : Nat} {member : List Nat × Json}
    {members : List (List Nat × Json)} (hmember : member ∈ members)
    (h : code ∈ printString member.1 ∨ Prints code member.2) (depth : Nat) :
    code ∈ printMembers depth members := by
  induction members with
  | nil => cases hmember
  | cons first rest ih =>
    simp only [printMembers, List.cons_append, List.mem_cons, List.mem_append]
    obtain rfl | hmember := List.mem_cons.mp hmember
    · obtain hkey | hvalue := h
      · simp [hkey]
      · simp [hvalue depth]
    · simp [ih hmember]

/-- What is printed of the key or the value of a member is printed of the object. -/
theorem Prints.object {code : Nat} {member : List Nat × Json} {members : List (List Nat × Json)}
    (hmember : member ∈ members) (h : code ∈ printString member.1 ∨ Prints code member.2) :
    Prints code (.object members) := by
  intro depth
  cases members with
  | nil => cases hmember
  | cons first rest =>
    simp only [printAt, List.cons_append, List.mem_cons, List.mem_append]
    obtain rfl | hmember := List.mem_cons.mp hmember
    · obtain hkey | hvalue := h
      · simp [hkey]
      · simp [hvalue (depth + 1)]
    · simp [mem_printMembers hmember h (depth + 1)]

end Namespacer.Json
