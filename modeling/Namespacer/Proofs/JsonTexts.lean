import Namespacer.Json.Reader
import Namespacer.Text.Blank
import Namespacer.Text.Quoted
import Mathlib.Algebra.GroupWithZero.Nat
import Mathlib.Data.List.Induction
import Mathlib.Data.List.Nodup

/-!
# JSON texts and their values

A grammar says which texts are JSON and what they stand for, without saying how they are read. Each
relation of it tells a text, what a first part of the text stands for, and the rest of the text. It
leaves out floating-point numbers, lone surrogates and integers with more digits than are read.

* `Json.ValueText`, `Json.IsTextOf`: the grammar of values and of whole texts.
* `Json.IsTextOf.unifyNewlines`: other line ends make no difference.
* `Json.IsTextOf.isPlain`: what the values of the grammar are like.
-/

namespace Namespacer.Json

/-! ## The grammar -/

/-- White space and the rest of the text. -/
inductive Spaces : Text → Text → Prop where
  | none {rest : Text} : Spaces rest rest
  | cons {c : Char} {text rest : Text} (hc : c ∈ [' ', '\t', '\n', '\r'])
      (hspaces : Spaces text rest) : Spaces (c :: text) rest

/-- A hexadecimal digit, in lower or upper case. -/
def IsHexDigit (c : Char) (value : Nat) : Prop :=
  value < 16 ∧ (c = Nat.digitChar value ∨ c = (Nat.digitChar value).toUpper)

/-- Four hexadecimal digits. -/
inductive HexText : Text → Nat → Prop where
  | mk {c₁ c₂ c₃ c₄ : Char} {v₁ v₂ v₃ v₄ : Nat} (h₁ : IsHexDigit c₁ v₁) (h₂ : IsHexDigit c₂ v₂)
      (h₃ : IsHexDigit c₃ v₃) (h₄ : IsHexDigit c₄ v₄) :
      HexText [c₁, c₂, c₃, c₄] (4096 * v₁ + 256 * v₂ + 16 * v₃ + v₄)

/-- The letters of the short escapes and what they stand for. -/
def shortEscapes : List (Char × Nat) :=
  [('"', 0x22), ('\\', 0x5C), ('/', 0x2F), ('b', 8), ('f', 12), ('n', 10), ('r', 13), ('t', 9)]

/-- A string after its opening quote: its code points, and the rest behind the closing quote. -/
inductive StringText : Text → List Nat → Text → Prop where
  | close {rest : Text} : StringText ('"' :: rest) [] rest
  | plain {c : Char} {text rest : Text} {codes : List Nat} (hquote : c ≠ '"')
      (hbackslash : c ≠ '\\') (hcontrol : 32 ≤ c.toNat) (htext : StringText text codes rest) :
      StringText (c :: text) (c.toNat :: codes) rest
  | short {e : Char} {code : Nat} {text rest : Text} {codes : List Nat}
      (hescape : (e, code) ∈ shortEscapes) (htext : StringText text codes rest) :
      StringText ('\\' :: e :: text) (code :: codes) rest
  | unit {digits text rest : Text} {code : Nat} {codes : List Nat} (hdigits : HexText digits code)
      (hcode : Text.isSurrogate code = false) (htext : StringText text codes rest) :
      StringText ('\\' :: 'u' :: (digits ++ text)) (code :: codes) rest
  /-- Two escapes stand for a code point beyond the first 65536 ones. -/
  | pair {high low text rest : Text} {above below : Nat} {codes : List Nat}
      (hhigh : HexText high (0xD800 + above)) (habove : above < 0x400)
      (hlow : HexText low (0xDC00 + below)) (hbelow : below < 0x400)
      (htext : StringText text codes rest) :
      StringText ('\\' :: 'u' :: (high ++ '\\' :: 'u' :: (low ++ text)))
        ((0x10000 + above * 0x400 + below) :: codes) rest

/-- Decimal digits without a leading zero, not more than are read. -/
structure IsNumeral (digits : Text) : Prop where
  ne_nil : digits ≠ []
  isDigit : ∀ c ∈ digits, c.isDigit = true
  leading : digits.head? = some '0' → digits = ['0']
  length_le : digits.length ≤ maxDigits

/-- An integer. -/
inductive IntegerText : Text → Int → Text → Prop where
  | natural {digits rest : Text} (hdigits : IsNumeral digits) :
      IntegerText (digits ++ rest) (Nat.ofDigitChars 10 digits 0) rest
  | negative {digits rest : Text} (hdigits : IsNumeral digits) :
      IntegerText ('-' :: (digits ++ rest)) (-(Nat.ofDigitChars 10 digits 0 : Int)) rest

/-- The members of an object as they are written. Where a key is repeated, its first place and
its last value count. -/
def gather (members : List (List Nat × Json)) : List (List Nat × Json) :=
  members.foldl (fun found member => put member.1 member.2 found) []

mutual

/-- A value. -/
inductive ValueText : Text → Json → Text → Prop where
  | null {rest : Text} : ValueText ("null".toList ++ rest) .null rest
  | true {rest : Text} : ValueText ("true".toList ++ rest) (.bool true) rest
  | false {rest : Text} : ValueText ("false".toList ++ rest) (.bool false) rest
  | int {text rest : Text} {value : Int} (htext : IntegerText text value rest) :
      ValueText text (.int value) rest
  | string {text rest : Text} {codes : List Nat} (htext : StringText text codes rest) :
      ValueText ('"' :: text) (.string codes) rest
  | emptyArray {text rest : Text} (hspaces : Spaces text (']' :: rest)) :
      ValueText ('[' :: text) (.array []) rest
  | array {text inner rest : Text} {elements : List Json} (hspaces : Spaces text inner)
      (helements : ElementsText inner elements rest) :
      ValueText ('[' :: text) (.array elements) rest
  | emptyObject {text rest : Text} (hspaces : Spaces text ('}' :: rest)) :
      ValueText ('{' :: text) (.object []) rest
  | object {text inner rest : Text} {members : List (List Nat × Json)}
      (hspaces : Spaces text inner) (hmembers : MembersText inner members rest) :
      ValueText ('{' :: text) (.object (gather members)) rest

/-- The elements of an array, and the rest behind the closing bracket. -/
inductive ElementsText : Text → List Json → Text → Prop where
  | last {text close rest : Text} {value : Json} (hvalue : ValueText text value close)
      (hclose : Spaces close (']' :: rest)) : ElementsText text [value] rest
  | cons {text comma next others rest : Text} {value : Json} {values : List Json}
      (hvalue : ValueText text value comma) (hcomma : Spaces comma (',' :: next))
      (hspaces : Spaces next others) (hothers : ElementsText others values rest) :
      ElementsText text (value :: values) rest

/-- The members of an object, and the rest behind the closing brace. -/
inductive MembersText : Text → List (List Nat × Json) → Text → Prop where
  | last {text rest : Text} {member : List Nat × Json} {close : Text}
      (hmember : MemberText text member close) (hclose : Spaces close ('}' :: rest)) :
      MembersText text [member] rest
  | cons {text comma next others rest : Text} {member : List Nat × Json}
      {members : List (List Nat × Json)} (hmember : MemberText text member comma)
      (hcomma : Spaces comma (',' :: next)) (hspaces : Spaces next others)
      (hothers : MembersText others members rest) : MembersText text (member :: members) rest

/-- A member of an object. -/
inductive MemberText : Text → List Nat × Json → Text → Prop where
  | mk {text colon next start rest : Text} {key : List Nat} {value : Json}
      (hkey : StringText text key colon) (hcolon : Spaces colon (':' :: next))
      (hspaces : Spaces next start) (hvalue : ValueText start value rest) :
      MemberText ('"' :: text) (key, value) rest

end

/-- A text of a value. -/
def IsTextOf (text : Text) (value : Json) : Prop :=
  ∃ start stop, Spaces text start ∧ ValueText start value stop ∧ Spaces stop []

/-! ## Line ends -/

theorem unifyNewlines_cons {c : Char} (hc : c ≠ '\r') (text : Text) :
    Text.unifyNewlines (c :: text) = c :: Text.unifyNewlines text := by
  rw [Text.unifyNewlines, if_neg hc]
  rintro rest rfl
  exact absurd rfl hc

theorem unifyNewlines_append {passed : Text} (hpassed : ∀ c ∈ passed, c ≠ '\r') (text : Text) :
    Text.unifyNewlines (passed ++ text) = passed ++ Text.unifyNewlines text := by
  induction passed with
  | nil => rfl
  | cons c passed ih =>
    rw [List.cons_append, unifyNewlines_cons (hpassed c List.mem_cons_self),
      ih fun c hc => hpassed c (List.mem_cons_of_mem _ hc), List.cons_append]

/-- A line feed swallows the carriage return before it. -/
theorem unifyNewlines_carriageReturn (text : Text) :
    Text.unifyNewlines ('\r' :: text) = Text.unifyNewlines text ∨
      Text.unifyNewlines ('\r' :: text) = '\n' :: Text.unifyNewlines text := by
  by_cases hfeed : ∃ tail, text = '\n' :: tail
  · obtain ⟨tail, rfl⟩ := hfeed
    left
    rw [Text.unifyNewlines, unifyNewlines_cons (by decide)]
  · right
    rw [Text.unifyNewlines, if_pos rfl]
    intro tail _ heq
    exact hfeed ⟨tail, heq⟩

theorem Spaces.unifyNewlines {text rest : Text} (h : Spaces text rest) :
    Spaces (Text.unifyNewlines text) (Text.unifyNewlines rest) := by
  induction h with
  | none => exact .none
  | @cons c text rest hc _ ih =>
    by_cases hreturn : c = '\r'
    · subst hreturn
      obtain heq | heq := unifyNewlines_carriageReturn text
      · rwa [heq]
      · rw [heq]
        exact .cons (by decide) ih
    · rw [unifyNewlines_cons hreturn]
      exact .cons hc ih

theorem ne_of_isDigit {c d : Char} (hc : c.isDigit = true) (hd : d.isDigit = false) : c ≠ d := by
  rintro rfl
  exact Bool.false_ne_true (hd.symm.trans hc)

theorem IsNumeral.ne_carriageReturn {digits : Text} (h : IsNumeral digits) :
    ∀ c ∈ digits, c ≠ '\r' := fun c hc => ne_of_isDigit (h.isDigit c hc) rfl

theorem IsHexDigit.ne_carriageReturn {c : Char} {value : Nat} (h : IsHexDigit c value) :
    c ≠ '\r' := by
  have hdigits : ∀ v < 16, Nat.digitChar v ≠ '\r' ∧ (Nat.digitChar v).toUpper ≠ '\r' := by decide
  obtain ⟨hvalue, rfl | rfl⟩ := h
  · exact (hdigits value hvalue).1
  · exact (hdigits value hvalue).2

theorem HexText.ne_carriageReturn {digits : Text} {code : Nat} (h : HexText digits code) :
    ∀ c ∈ digits, c ≠ '\r' := by
  cases h with
  | mk h₁ h₂ h₃ h₄ =>
    simp only [List.forall_mem_cons]
    exact ⟨h₁.ne_carriageReturn, h₂.ne_carriageReturn, h₃.ne_carriageReturn,
      h₄.ne_carriageReturn, List.forall_mem_nil _⟩

theorem StringText.unifyNewlines {text rest : Text} {codes : List Nat}
    (h : StringText text codes rest) :
    StringText (Text.unifyNewlines text) codes (Text.unifyNewlines rest) := by
  have hback : '\\' ≠ '\r' := by decide
  have hu : 'u' ≠ '\r' := by decide
  induction h with
  | close =>
    rw [unifyNewlines_cons (by decide)]
    exact .close
  | @plain c _ _ _ hquote hbackslash hcontrol _ ih =>
    have hc : c ≠ '\r' := by
      rintro rfl
      exact absurd hcontrol (by decide)
    rw [unifyNewlines_cons hc]
    exact .plain hquote hbackslash hcontrol ih
  | @short e code _ _ _ hescape _ ih =>
    have he : ∀ escape ∈ shortEscapes, escape.1 ≠ '\r' := by decide
    rw [unifyNewlines_cons hback, unifyNewlines_cons (he _ hescape)]
    exact .short hescape ih
  | unit hdigits hcode _ ih =>
    rw [unifyNewlines_cons hback, unifyNewlines_cons hu,
      unifyNewlines_append hdigits.ne_carriageReturn]
    exact .unit hdigits hcode ih
  | pair hhigh habove hlow hbelow _ ih =>
    rw [unifyNewlines_cons hback, unifyNewlines_cons hu,
      unifyNewlines_append hhigh.ne_carriageReturn, unifyNewlines_cons hback,
      unifyNewlines_cons hu, unifyNewlines_append hlow.ne_carriageReturn]
    exact .pair hhigh habove hlow hbelow ih

theorem IntegerText.unifyNewlines {text rest : Text} {value : Int}
    (h : IntegerText text value rest) :
    IntegerText (Text.unifyNewlines text) value (Text.unifyNewlines rest) := by
  cases h with
  | natural hdigits =>
    rw [unifyNewlines_append hdigits.ne_carriageReturn]
    exact .natural hdigits
  | negative hdigits =>
    rw [unifyNewlines_cons (by decide), unifyNewlines_append hdigits.ne_carriageReturn]
    exact .negative hdigits

mutual

theorem ValueText.unifyNewlines {text rest : Text} {value : Json} (h : ValueText text value rest) :
    ValueText (Text.unifyNewlines text) value (Text.unifyNewlines rest) := by
  match h with
  | .null =>
    rw [unifyNewlines_append (by simp)]
    exact .null
  | .true =>
    rw [unifyNewlines_append (by simp)]
    exact .true
  | .false =>
    rw [unifyNewlines_append (by simp)]
    exact .false
  | .int htext => exact .int htext.unifyNewlines
  | .string htext =>
    rw [unifyNewlines_cons (by decide)]
    exact .string htext.unifyNewlines
  | .emptyArray hspaces =>
    have hclose := hspaces.unifyNewlines
    rw [unifyNewlines_cons (by decide)] at hclose ⊢
    exact .emptyArray hclose
  | .array hspaces helements =>
    rw [unifyNewlines_cons (by decide)]
    exact .array hspaces.unifyNewlines helements.unifyNewlines
  | .emptyObject hspaces =>
    have hclose := hspaces.unifyNewlines
    rw [unifyNewlines_cons (by decide)] at hclose ⊢
    exact .emptyObject hclose
  | .object hspaces hmembers =>
    rw [unifyNewlines_cons (by decide)]
    exact .object hspaces.unifyNewlines hmembers.unifyNewlines

theorem ElementsText.unifyNewlines {text rest : Text} {elements : List Json}
    (h : ElementsText text elements rest) :
    ElementsText (Text.unifyNewlines text) elements (Text.unifyNewlines rest) := by
  match h with
  | .last hvalue hclose =>
    have hclose := hclose.unifyNewlines
    rw [unifyNewlines_cons (by decide)] at hclose
    exact .last hvalue.unifyNewlines hclose
  | .cons hvalue hcomma hspaces hothers =>
    have hcomma := hcomma.unifyNewlines
    rw [unifyNewlines_cons (by decide)] at hcomma
    exact .cons hvalue.unifyNewlines hcomma hspaces.unifyNewlines hothers.unifyNewlines

theorem MembersText.unifyNewlines {text rest : Text} {members : List (List Nat × Json)}
    (h : MembersText text members rest) :
    MembersText (Text.unifyNewlines text) members (Text.unifyNewlines rest) := by
  match h with
  | .last hmember hclose =>
    have hclose := hclose.unifyNewlines
    rw [unifyNewlines_cons (by decide)] at hclose
    exact .last hmember.unifyNewlines hclose
  | .cons hmember hcomma hspaces hothers =>
    have hcomma := hcomma.unifyNewlines
    rw [unifyNewlines_cons (by decide)] at hcomma
    exact .cons hmember.unifyNewlines hcomma hspaces.unifyNewlines hothers.unifyNewlines

theorem MemberText.unifyNewlines {text rest : Text} {member : List Nat × Json}
    (h : MemberText text member rest) :
    MemberText (Text.unifyNewlines text) member (Text.unifyNewlines rest) := by
  match h with
  | .mk hkey hcolon hspaces hvalue =>
    have hcolon := hcolon.unifyNewlines
    rw [unifyNewlines_cons (by decide)] at hcolon ⊢
    exact .mk hkey.unifyNewlines hcolon hspaces.unifyNewlines hvalue.unifyNewlines

end

/-- A text whose lines end in another way is a text of the same value. -/
theorem IsTextOf.unifyNewlines {text : Text} {value : Json} (h : IsTextOf text value) :
    IsTextOf (Text.unifyNewlines text) value := by
  obtain ⟨start, stop, hstart, hvalue, hstop⟩ := h
  exact ⟨_, _, hstart.unifyNewlines, hvalue.unifyNewlines, hstop.unifyNewlines⟩

/-! ## The values -/

/-- A value as texts hold it: its strings are made of characters, its integers can be read, and no
key of an object is repeated. -/
inductive IsPlain : Json → Prop where
  | null : IsPlain .null
  | bool {value : Bool} : IsPlain (.bool value)
  | int {value : Int} (hdigits : (Nat.toDigits 10 value.natAbs).length ≤ maxDigits) :
      IsPlain (.int value)
  | string {codes : List Nat} (hcodes : ∀ code ∈ codes, code.isValidChar) : IsPlain (.string codes)
  | array {elements : List Json} (helements : ∀ value ∈ elements, IsPlain value) :
      IsPlain (.array elements)
  | object {members : List (List Nat × Json)} (hnodup : (members.map (·.1)).Nodup)
      (hkeys : ∀ member ∈ members, ∀ code ∈ member.1, code.isValidChar)
      (hvalues : ∀ member ∈ members, IsPlain member.2) : IsPlain (.object members)

/-- A key that is set keeps its place, or comes last. -/
theorem map_fst_put (key : List Nat) (value : Json) (members : List (List Nat × Json)) :
    (put key value members).map (·.1) =
      if key ∈ members.map (·.1) then members.map (·.1) else members.map (·.1) ++ [key] := by
  induction members with
  | nil => rfl
  | cons member members ih =>
    obtain ⟨other, old⟩ := member
    by_cases hkey : other = key
    · simp [put, hkey]
    · simp only [put, if_neg hkey, List.map_cons, ih, List.mem_cons, Ne.symm hkey, false_or]
      split <;> rfl

theorem nodup_put {members : List (List Nat × Json)} (h : (members.map (·.1)).Nodup)
    (key : List Nat) (value : Json) : ((put key value members).map (·.1)).Nodup := by
  rw [map_fst_put]
  split
  · exact h
  · next hkey =>
    rw [List.nodup_append]
    refine ⟨h, List.nodup_singleton key, ?_⟩
    intro other hother last hlast
    rw [List.mem_singleton.mp hlast]
    exact ne_of_mem_of_not_mem hother hkey

theorem mem_put {key : List Nat} {value : Json} {members : List (List Nat × Json)}
    {member : List Nat × Json} (h : member ∈ put key value members) :
    member = (key, value) ∨ member ∈ members := by
  induction members with
  | nil => exact .inl (List.mem_singleton.mp h)
  | cons first members ih =>
    rw [put] at h
    split at h
    · exact (List.mem_cons.mp h).imp_right (List.mem_cons_of_mem _)
    · obtain rfl | h := List.mem_cons.mp h
      · exact .inr List.mem_cons_self
      · exact (ih h).imp_right (List.mem_cons_of_mem _)

theorem IsPlain.members {members : List (List Nat × Json)} (h : IsPlain (.object members)) :
    ∀ member ∈ members, (∀ code ∈ member.1, code.isValidChar) ∧ IsPlain member.2 := by
  cases h with
  | object _ hkeys hvalues =>
    intro member hmember
    exact ⟨hkeys member hmember, hvalues member hmember⟩

theorem IsPlain.nodup {members : List (List Nat × Json)} (h : IsPlain (.object members)) :
    (members.map (·.1)).Nodup := by
  cases h with
  | object hnodup _ _ => exact hnodup

theorem IsPlain.put {members : List (List Nat × Json)} (h : IsPlain (.object members))
    {key : List Nat} {value : Json} (hkey : ∀ code ∈ key, code.isValidChar)
    (hvalue : IsPlain value) : IsPlain (.object (Json.put key value members)) := by
  have hmembers : ∀ member ∈ Json.put key value members,
      (∀ code ∈ member.1, code.isValidChar) ∧ IsPlain member.2 := by
    intro member hmember
    obtain rfl | hmember := mem_put hmember
    · exact ⟨hkey, hvalue⟩
    · exact h.members member hmember
  exact .object (nodup_put h.nodup key value) (fun member hm => (hmembers member hm).1)
    fun member hm => (hmembers member hm).2

theorem isPlain_foldl_put {members found : List (List Nat × Json)}
    (hmembers : ∀ member ∈ members, (∀ code ∈ member.1, code.isValidChar) ∧ IsPlain member.2)
    (hfound : IsPlain (.object found)) :
    IsPlain (.object (members.foldl (fun found member => put member.1 member.2 found) found)) := by
  induction members generalizing found with
  | nil => exact hfound
  | cons member members ih =>
    rw [List.forall_mem_cons] at hmembers
    exact ih hmembers.2 (hfound.put hmembers.1.1 hmembers.1.2)

theorem HexText.lt {digits : Text} {code : Nat} (h : HexText digits code) : code < 0x10000 := by
  cases h with
  | mk h₁ h₂ h₃ h₄ =>
    have := h₁.1
    have := h₂.1
    have := h₃.1
    have := h₄.1
    omega

theorem isSurrogate_eq_false_iff {code : Nat} :
    Text.isSurrogate code = false ↔ code < 0xD800 ∨ 0xDFFF < code := by
  simp only [Text.isSurrogate, Bool.and_eq_false_iff, decide_eq_false_iff_not]
  omega

theorem StringText.isValidChar {text rest : Text} {codes : List Nat}
    (h : StringText text codes rest) : ∀ code ∈ codes, code.isValidChar := by
  induction h with
  | close => exact List.forall_mem_nil _
  | @plain c _ _ _ _ _ _ _ ih => exact List.forall_mem_cons.mpr ⟨c.valid, ih⟩
  | short hescape _ ih =>
    have hcodes : ∀ escape ∈ shortEscapes, escape.2 < 0xD800 := by decide
    exact List.forall_mem_cons.mpr ⟨.inl (hcodes _ hescape), ih⟩
  | unit hdigits hcode _ ih =>
    refine List.forall_mem_cons.mpr ⟨?_, ih⟩
    have hlt := hdigits.lt
    obtain hcode | hcode := isSurrogate_eq_false_iff.mp hcode
    · exact .inl hcode
    · exact .inr ⟨hcode, by omega⟩
  | pair _ habove _ hbelow _ ih => exact List.forall_mem_cons.mpr ⟨.inr ⟨by omega, by omega⟩, ih⟩

theorem toNat_sub_lt_of_isDigit {c : Char} (hc : c.isDigit = true) :
    c.toNat - '0'.toNat < 10 := by
  simp only [Char.isDigit, Bool.and_eq_true, decide_eq_true_eq] at hc
  have hle : c.toNat ≤ 57 := hc.2
  have hzero : '0'.toNat = 48 := rfl
  omega

theorem ofDigitChars_lt {digits : Text} (h : ∀ c ∈ digits, c.isDigit = true) :
    Nat.ofDigitChars 10 digits 0 < 10 ^ digits.length := by
  induction digits using List.reverseRec with
  | nil => exact Nat.one_pos
  | append_singleton digits c ih =>
    have hdigits := ih fun c hc => h c (List.mem_append_left _ hc)
    have hc := toNat_sub_lt_of_isDigit (h c (List.mem_append_right _ (List.mem_singleton_self c)))
    rw [Nat.ofDigitChars_append, Nat.ofDigitChars_cons, Nat.ofDigitChars_nil, List.length_append,
      List.length_singleton, Nat.pow_succ]
    omega

theorem IsNumeral.length_toDigits_le {digits : Text} (h : IsNumeral digits) :
    (Nat.toDigits 10 (Nat.ofDigitChars 10 digits 0)).length ≤ maxDigits := by
  have hlength : (Nat.toDigits 10 (Nat.ofDigitChars 10 digits 0)).length ≤ digits.length :=
    (Nat.length_toDigits_le_iff (by omega) (List.length_pos_iff.mpr h.ne_nil)).mpr
      (ofDigitChars_lt h.isDigit)
  exact Nat.le_trans hlength h.length_le

mutual

theorem ValueText.isPlain {text rest : Text} {value : Json} (h : ValueText text value rest) :
    IsPlain value := by
  match h with
  | .null => exact .null
  | .true => exact .bool
  | .false => exact .bool
  | .int htext =>
    refine .int ?_
    cases htext with
    | natural hdigits => exact hdigits.length_toDigits_le
    | negative hdigits =>
      rw [Int.natAbs_neg, Int.natAbs_natCast]
      exact hdigits.length_toDigits_le
  | .string htext => exact .string htext.isValidChar
  | .emptyArray _ => exact .array (List.forall_mem_nil _)
  | .array _ helements => exact .array helements.isPlain
  | .emptyObject _ => exact .object List.nodup_nil (List.forall_mem_nil _) (List.forall_mem_nil _)
  | .object _ hmembers =>
    exact isPlain_foldl_put hmembers.isPlain
      (.object List.nodup_nil (List.forall_mem_nil _) (List.forall_mem_nil _))

theorem ElementsText.isPlain {text rest : Text} {elements : List Json}
    (h : ElementsText text elements rest) : ∀ value ∈ elements, IsPlain value := by
  match h with
  | .last hvalue _ => exact List.forall_mem_singleton.mpr hvalue.isPlain
  | .cons hvalue _ _ hothers => exact List.forall_mem_cons.mpr ⟨hvalue.isPlain, hothers.isPlain⟩

theorem MembersText.isPlain {text rest : Text} {members : List (List Nat × Json)}
    (h : MembersText text members rest) :
    ∀ member ∈ members, (∀ code ∈ member.1, code.isValidChar) ∧ IsPlain member.2 := by
  match h with
  | .last hmember _ => exact List.forall_mem_singleton.mpr hmember.isPlain
  | .cons hmember _ _ hothers => exact List.forall_mem_cons.mpr ⟨hmember.isPlain, hothers.isPlain⟩

theorem MemberText.isPlain {text rest : Text} {member : List Nat × Json}
    (h : MemberText text member rest) :
    (∀ code ∈ member.1, code.isValidChar) ∧ IsPlain member.2 := by
  match h with
  | .mk hkey _ _ hvalue => exact ⟨hkey.isValidChar, hvalue.isPlain⟩

end

/-- Every value that a text stands for is plain. -/
theorem IsTextOf.isPlain {text : Text} {value : Json} (h : IsTextOf text value) :
    IsPlain value := by
  obtain ⟨_, _, _, hvalue, _⟩ := h
  exact hvalue.isPlain

end Namespacer.Json
