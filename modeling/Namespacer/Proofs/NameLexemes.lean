import Namespacer.Grammar.Lexer
import Namespacer.Proofs.ImportRecognition
import Mathlib.Data.List.TakeWhile

/-!
# The lexemes of names

Names are written into program text and read again by the scanner. What a name leaves behind
depends on its characters only: a run of letters, digits and underscores never reaches beyond
the separator or the semicolon that follows it, even where it begins with a digit.

* `one_le_recognize`, `map_lexeme_scan`: scanning goes on until the text ends, so the lexemes
  of a text depend neither on the number of steps nor on where the text stands.
* `codeLexemes_of_none`, `codeLexemes_of_some`: the lexemes of program code, one at a time.
* `codeLexemes_name`: a name leaves words, numbers and separators behind.
-/

namespace Namespacer.Grammar

/-! ## Numbers -/

theorem length_takeWhile_append_le {α : Type} {p : α → Bool} (run : List α) {tail : List α}
    (htail : ∀ c ∈ tail.head?, p c = false) :
    ((run ++ tail).takeWhile p).length ≤ run.length := by
  induction run with
  | nil =>
    cases tail with
    | nil => simp
    | cons c tail => simp [htail c rfl]
  | cons c run ih =>
    rw [List.cons_append, List.takeWhile_cons]
    split
    · simpa using ih
    · simp

theorem one_le_digitsLength {isDigit : Char → Bool} {c : Char} (h : isDigit c = true)
    (text : Text) : 1 ≤ digitsLength isDigit (c :: text) := by
  simp [digitsLength, h]

theorem fractionLength_of_head? {text : Text} (h : text.head? ≠ some '.') :
    fractionLength text = 0 := by
  unfold fractionLength
  split
  · rfl
  · exact absurd rfl h
  · rfl

/-- Digits behind the mark of a radix are counted from behind the mark on. -/
theorem radixLength_cases (text : Text) :
    radixLength text = 0 ∨ ∃ mark rest isDigit, text = '0' :: mark :: rest ∧
      isNameChar mark = true ∧ isDigit '\\' = false ∧ isDigit ';' = false ∧
        radixLength text = digitsLength isDigit rest := by
  unfold radixLength
  split
  · rename_i mark rest
    split
    · rename_i hmark
      refine .inr ⟨mark, rest, _, rfl, ?_, ?_, ?_, rfl⟩
      · rcases hmark with rfl | rfl <;> rfl
      · decide
      · decide
    · split
      · rename_i hmark
        refine .inr ⟨mark, rest, _, rfl, ?_, ?_, ?_, rfl⟩
        · rcases hmark with rfl | rfl | rfl | rfl <;> rfl
        · decide
        · decide
      · exact .inl rfl
  · exact .inl rfl

/-- A number is not empty if a digit is at its start or behind a dot there. -/
theorem one_le_number {c : Char} {text : Text}
    (h : c.isDigit = true ∨ c = '.' ∧ text.head?.any Char.isDigit = true) :
    1 ≤ (number (c :: text)).2 := by
  rw [number]
  split
  · exact Nat.le_add_left 1 _
  · refine Nat.le_add_right_of_le ?_
    rcases h with h | ⟨rfl, h⟩
    · exact Nat.le_add_right_of_le (one_le_digitsLength h text)
    · obtain ⟨d, hd, hdigit⟩ := (Option.any_eq_true _ _).mp h
      obtain ⟨rest, rfl⟩ := List.head?_eq_some_iff.mp hd
      have hdot : d ≠ '.' := by
        rintro rfl
        cases hdigit
      have hfraction : fractionLength ('.' :: d :: rest) =
          1 + digitsLength Char.isDigit (d :: rest) := by
        rw [fractionLength]
        simpa using hdot
      change 1 ≤ 0 + fractionLength ('.' :: d :: rest)
      omega

/-- Whether a name can end in front of a text. -/
def EndsName (tail : Text) : Prop := tail.head? = some '\\' ∨ tail.head? = some ';'

theorem EndsName.head?_eq_false {p : Char → Bool} {tail : Text} (h : EndsName tail)
    (hback : p '\\' = false) (hsemi : p ';' = false) : ∀ c ∈ tail.head?, p c = false := by
  intro c hc
  rcases h with h | h
  · rw [h, Option.mem_some_iff] at hc
    rwa [← hc]
  · rw [h, Option.mem_some_iff] at hc
    rwa [← hc]

section

variable {run tail : Text} (hrun : ∀ c ∈ run, isNameChar c = true) (htail : EndsName tail)

include htail

theorem digitsLength_append_le {isDigit : Char → Bool}
    (hback : isDigit '\\' = false) (hsemi : isDigit ';' = false) :
    digitsLength isDigit (run ++ tail) ≤ run.length :=
  length_takeWhile_append_le run (htail.head?_eq_false (by simp [hback]) (by simp [hsemi]))

include hrun

/-- Neither the characters of a name nor what follows it are other ones. -/
theorem head?_append_ne {c : Char} (hc : isNameChar c = false) (hback : c ≠ '\\')
    (hsemi : c ≠ ';') : (run ++ tail).head? ≠ some c := by
  cases run with
  | nil =>
    rcases htail with h | h
    · simpa [h] using hback.symm
    · simpa [h] using hsemi.symm
  | cons d run =>
    rintro ⟨⟩
    exact Bool.false_ne_true (hc.symm.trans (hrun c List.mem_cons_self))

theorem exponentLength_append_le : exponentLength (run ++ tail) ≤ run.length := by
  cases run with
  | nil =>
    obtain ⟨rest, rfl⟩ | ⟨rest, rfl⟩ :=
      htail.imp List.head?_eq_some_iff.mp List.head?_eq_some_iff.mp
    · exact Nat.le_refl 0
    · exact Nat.le_refl 0
  | cons e run =>
    rw [List.forall_mem_cons] at hrun
    have hplus := head?_append_ne hrun.2 htail (c := '+') (by decide) (by decide) (by decide)
    have hminus := head?_append_ne hrun.2 htail (c := '-') (by decide) (by decide) (by decide)
    have hdigits : digitsLength Char.isDigit (run ++ tail) ≤ run.length :=
      digitsLength_append_le htail (by decide) (by decide)
    simp only [List.cons_append, exponentLength, hplus, hminus, or_self, if_false, List.drop_zero,
      List.length_cons]
    split
    · split
      · exact Nat.zero_le _
      · omega
    · exact Nat.zero_le _

theorem radixLength_append_le (h : 0 < radixLength (run ++ tail)) :
    radixLength (run ++ tail) + 2 ≤ run.length := by
  obtain hzero | ⟨mark, rest, isDigit, heq, hmark, hback, hsemi, hlength⟩ :=
    radixLength_cases (run ++ tail)
  · omega
  have htailName := htail.head?_eq_false (p := isNameChar) (by decide) (by decide)
  -- Both the zero and the mark are characters of a name, so they belong to the run.
  match run with
  | [] =>
    rw [List.nil_append] at heq
    rw [heq] at htailName
    cases htailName '0' rfl
  | [c] =>
    rw [List.singleton_append, List.cons.injEq] at heq
    rw [heq.2] at htailName
    exact absurd ((htailName mark rfl).symm.trans hmark) Bool.false_ne_true
  | _ :: _ :: run =>
    obtain ⟨rfl, rfl, rfl⟩ : _ ∧ _ ∧ run ++ tail = rest := by simpa using heq
    have hdigits : digitsLength isDigit (run ++ tail) ≤ run.length :=
      digitsLength_append_le htail hback hsemi
    rw [hlength]
    exact Nat.add_le_add_right hdigits 2

/-- A number in a run of letters and digits ends with the run at the latest. -/
theorem number_append_le : (number (run ++ tail)).2 ≤ run.length := by
  rw [number]
  split
  · rename_i hradix
    exact radixLength_append_le hrun htail hradix
  · have hwhole : digitsLength Char.isDigit (run ++ tail) ≤ run.length :=
      digitsLength_append_le htail (by decide) (by decide)
    generalize digitsLength Char.isDigit (run ++ tail) = whole at hwhole
    have hdrop : ∀ c ∈ run.drop whole, isNameChar c = true :=
      fun c hc => hrun c (List.mem_of_mem_drop hc)
    have hfraction : fractionLength (run.drop whole ++ tail) = 0 :=
      fractionLength_of_head? (head?_append_ne hdrop htail (by decide) (by decide) (by decide))
    have hexponent := exponentLength_append_le hdrop htail
    rw [List.length_drop] at hexponent
    simp only [List.drop_append_of_le_length hwhole, hfraction, List.drop_zero]
    omega
end

/-! ## Recognizing -/

theorem one_le_length_of_atStart? {text : Text} {symbol : Symbol} {length : Nat}
    (h : Symbol.atStart? text = some (symbol, length)) : 1 ≤ length := by
  have hsymbols : ∀ row ∈ symbols, 1 ≤ row.1.length := by decide
  rw [Symbol.atStart?, Option.map_eq_some_iff] at h
  obtain ⟨row, hrow, heq⟩ := h
  cases heq
  exact hsymbols row (List.mem_of_find?_eq_some hrow)

/-- Something is recognized at the start of every text of code. -/
theorem one_le_recognize (afterOperand : Bool) (c : Char) (text : Text) :
    1 ≤ (recognize afterOperand (c :: text)).2 := by
  have hlead (first length : Nat) : 1 ≤ first + 1 + length := by omega
  unfold recognize
  split
  · rename_i heq
    cases heq
  · exact hlead 1 _
  · exact hlead 1 _
  · exact Nat.le_add_left 1 1
  · exact hlead 0 _
  · exact Nat.le_add_left 1 1
  · exact hlead 0 _
  · exact hlead 0 _
  · rename_i heq
    cases heq
    split
    · exact Nat.le_refl 1
    split
    · exact hlead 0 _
    split
    · exact hlead 0 _
    split
    · exact hlead 1 _
    split
    · exact hlead 1 _
    split
    · rename_i hstart
      simp [isNameChar, hstart]
    split
    · rename_i hnumber
      exact one_le_number (hnumber.imp_right fun h => ⟨h.1, h.2.2⟩)
    split
    · split
      · exact hlead 2 _
      · rename_i hsymbol
        exact one_le_length_of_atStart? hsymbol
      · exact Nat.le_refl 1
    · rename_i hsymbol
      exact one_le_length_of_atStart? hsymbol
    · exact Nat.le_refl 1

/-- Whether a lexeme can stand between the separators of a name. -/
def Lexeme.isSegment : Lexeme → Bool
  | .word .. | .integer | .float => true
  | _ => false

/-- Whether a lexeme can stand in a name. -/
def Lexeme.isNamePart (lexeme : Lexeme) : Bool :=
  lexeme.isSegment || lexeme == .symbol .backslash

theorem isSegment_number (text : Text) : (number text).1.isSegment = true := by
  rw [number]
  split
  · rfl
  · simp only
    split <;> rfl

theorem ne_of_isNameChar {c d : Char} (hc : isNameChar c = true) (hd : isNameChar d = false) :
    c ≠ d := by
  rintro rfl
  exact Bool.false_ne_true (hd.symm.trans hc)

theorem not_isSpace_of_isNameChar {c : Char} (hc : isNameChar c = true) :
    (isSpace c || spaceSigns.contains c) = false ∧ c.toNat ≠ 96 := by
  by_cases hascii : c.toNat < 128
  · exact Text.forall_ascii (P := fun c => isNameChar c = true →
      (isSpace c || spaceSigns.contains c) = false ∧ c.toNat ≠ 96) (by decide) hascii hc
  · have hblank : c ≠ ' ' := by
      rintro rfl
      exact hascii (by decide)
    have hcontrol : ¬ c.toNat ≤ 13 := by omega
    have hsign : c ∉ spaceSigns := by
      intro hsign
      have hnone : spaceSigns.any isNameChar = false := by decide
      exact List.any_eq_false.mp hnone c hsign hc
    refine ⟨by simp [isSpace, hblank, hcontrol, hsign], by omega⟩

/-- A character of a name begins a quoted text, a word or a number. -/
theorem recognize_of_isNameChar {c : Char} (hc : isNameChar c = true) (afterOperand : Bool)
    {text : Text} (hquote : text.head? ≠ some '\'') (hdouble : text.head? ≠ some '"') :
    recognize afterOperand (c :: text) =
      if isNameStart c then
        let word := (c :: text).takeWhile isNameChar
        (some (.word word (Keyword.ofWord? word)), word.length)
      else (some (number (c :: text)).1, (number (c :: text)).2) := by
  obtain ⟨hspace, hshell⟩ := not_isSpace_of_isNameChar hc
  have hdigit : isNameStart c = false → c.isDigit = true := by
    intro hstart
    simpa [isNameChar, hstart] using hc
  unfold recognize
  split
  all_goals try
    rename_i heq
    rw [List.cons.injEq] at heq
    exact absurd heq.1 (ne_of_isNameChar hc (by decide))
  · rename_i heq
    cases heq
  · rename_i heq
    cases heq
    rw [if_neg (Bool.eq_false_iff.mp hspace), if_neg hshell,
      if_neg fun h => ne_of_isNameChar hc (by decide) h.1, if_neg fun h => hquote h.2,
      if_neg fun h => hdouble h.2]
    split
    · rfl
    · rename_i hstart
      rw [if_pos (.inl (hdigit (by simpa using hstart)))]

/-- What is recognized at the start of a run of letters and digits is a segment of a name or
part of one, and does not reach beyond the run. -/
theorem recognize_run (afterOperand : Bool) {c : Char} {run tail : Text}
    (hc : isNameChar c = true) (hrun : ∀ d ∈ run, isNameChar d = true) (htail : EndsName tail) :
    ∃ lexeme length, recognize afterOperand (c :: (run ++ tail)) = (some lexeme, length) ∧
      lexeme.isSegment = true ∧ length ≤ (c :: run).length := by
  rw [recognize_of_isNameChar hc _
    (head?_append_ne hrun htail (by decide) (by decide) (by decide))
    (head?_append_ne hrun htail (by decide) (by decide) (by decide))]
  split
  · refine ⟨_, _, rfl, rfl, ?_⟩
    exact length_takeWhile_append_le (c :: run) (htail.head?_eq_false (by decide) (by decide))
  · refine ⟨_, _, rfl, isSegment_number _, ?_⟩
    exact number_append_le (List.forall_mem_cons.mpr ⟨hc, hrun⟩) htail

/-! ## Lexemes -/

theorem two_le_openTagLength? {text : Text} {length : Nat} (h : openTagLength? text = some length) :
    2 ≤ length ∧ 2 ≤ text.length := by
  unfold openTagLength? at h
  split at h
  · rename_i rest
    refine ⟨?_, by simp⟩
    split at h
    · cases h
      decide
    split at h
    · cases h
      decide
    · cases h
      decide
  · cases h

/-- Neither the number of steps nor the position of a text changes its lexemes, if there are
enough steps. -/
theorem map_lexeme_scan (steps : Nat) :
    (∀ others position place text, text.length < steps → text.length < others →
      (scanHtml steps position text).map (·.lexeme) =
        (scanHtml others place text).map (·.lexeme)) ∧
    ∀ others position place afterOperand text, text.length < steps → text.length < others →
      (scanCode steps position afterOperand text).map (·.lexeme) =
        (scanCode others place afterOperand text).map (·.lexeme) := by
  induction steps with
  | zero => simp
  | succ steps ih =>
    obtain ⟨ihHtml, ihCode⟩ := ih
    refine ⟨fun others position place text hsteps hothers => ?_,
      fun others position place afterOperand text hsteps hothers => ?_⟩
    · obtain ⟨others, rfl⟩ := Nat.exists_eq_add_one_of_ne_zero (Nat.ne_zero_of_lt hothers)
      simp only [scanHtml, apply_ite (List.map Token.lexeme), List.map_cons]
      have htag : ∀ {length : Nat}, openTagLength? (text.drop (htmlLength text)) = some length →
          ((text.drop (htmlLength text)).drop length).length < text.length := by
        intro length hlength
        obtain ⟨hpositive, hshort⟩ := two_le_openTagLength? hlength
        rw [List.length_drop] at hshort ⊢
        rw [List.length_drop]
        omega
      cases hlength : openTagLength? (text.drop (htmlLength text)) with
      | none => rfl
      | some length =>
        have hrest := htag hlength
        simp only [List.map_cons]
        rw [ihCode others _ (place + Text.byteSize (text.take (htmlLength text)) + length) _ _
          (by omega) (by omega)]
    · obtain ⟨others, rfl⟩ := Nat.exists_eq_add_one_of_ne_zero (Nat.ne_zero_of_lt hothers)
      cases text with
      | nil => rfl
      | cons c text =>
        have hlength := one_le_recognize afterOperand c text
        have hrest : ((c :: text).drop (recognize afterOperand (c :: text)).2).length <
            (c :: text).length := by
          rw [List.length_drop, List.length_cons]
          omega
        simp only [scanCode]
        split
        · exact ihCode _ _ _ _ _ (by omega) (by omega)
        · exact congrArg (Lexeme.closeTag :: ·) (ihHtml _ _ _ _ (by omega) (by omega))
        · exact congrArg (_ :: ·) (ihCode _ _ _ _ _ (by omega) (by omega))

/-- The lexemes of a text. -/
def lexemes (text : Text) : List Lexeme := (Token.scan text).map (·.lexeme)

/-- The lexemes of a text of program code. -/
def codeLexemes (afterOperand : Bool) (text : Text) : List Lexeme :=
  (scanCode (text.length + 1) 0 afterOperand text).map (·.lexeme)

theorem map_lexeme_scanCode {steps : Nat} (position : Nat) (afterOperand : Bool) {text : Text}
    (hsteps : text.length < steps) :
    (scanCode steps position afterOperand text).map (·.lexeme) = codeLexemes afterOperand text :=
  (map_lexeme_scan steps).2 _ _ _ _ _ hsteps (Nat.lt_succ_self _)

/-- Blanks and comments leave no lexeme behind. -/
theorem codeLexemes_of_none {afterOperand : Bool} {c : Char} {text : Text} {length : Nat}
    (h : recognize afterOperand (c :: text) = (none, length)) :
    codeLexemes afterOperand (c :: text) = codeLexemes afterOperand ((c :: text).drop length) := by
  have hlength := one_le_recognize afterOperand c text
  rw [h] at hlength
  rw [codeLexemes, scanCode]
  simp only [h]
  refine map_lexeme_scanCode _ _ ?_
  rw [List.length_drop, List.length_cons]
  omega

/-- A lexeme of program code, and those behind it. -/
theorem codeLexemes_of_some {afterOperand : Bool} {c : Char} {text : Text} {lexeme : Lexeme}
    {length : Nat} (h : recognize afterOperand (c :: text) = (some lexeme, length))
    (hclose : lexeme ≠ .closeTag) :
    codeLexemes afterOperand (c :: text) =
      lexeme :: codeLexemes (endsOperand lexeme) ((c :: text).drop length) := by
  have hlength := one_le_recognize afterOperand c text
  rw [h] at hlength
  rw [codeLexemes, scanCode]
  simp only [h]
  refine congrArg (lexeme :: ·) (map_lexeme_scanCode _ _ ?_)
  rw [List.length_drop, List.length_cons]
  omega

/-! ## Names -/

theorem isNameChar_of_isPlainChar {c : Char} (h : isPlainChar c = true) (hback : c ≠ '\\') :
    isNameChar c = true :=
  Text.forall_ascii (P := fun c => isPlainChar c = true → c ≠ '\\' → isNameChar c = true)
    (by decide) (toNat_lt_of_isPlainChar h) h hback

/-- What is left of a name behind its first run of letters and digits begins with a separator,
or the name ends there. -/
theorem endsName_dropWhile {name : Text} (h : IsPlainName name) (text : Text) :
    EndsName (name.dropWhile isNameChar ++ ';' :: text) := by
  cases hrest : name.dropWhile isNameChar with
  | nil => exact .inr rfl
  | cons c rest =>
    have hplain : isPlainChar c = true := by
      refine h c ((List.dropWhile_sublist isNameChar).subset ?_)
      rw [hrest]
      exact List.mem_cons_self
    have hnot := List.head?_dropWhile_not isNameChar name
    simp only [hrest, List.head?_cons] at hnot
    refine .inl (congrArg some ?_)
    by_contra hback
    rw [isNameChar_of_isPlainChar hplain hback] at hnot
    cases hnot

/-- What is recognized at the start of a name is part of it. -/
theorem recognize_name (afterOperand : Bool) {c : Char} {name : Text} (h : IsPlainName (c :: name))
    (text : Text) :
    ∃ lexeme length, recognize afterOperand (c :: (name ++ ';' :: text)) = (some lexeme, length) ∧
      lexeme.isNamePart = true ∧ length ≤ (c :: name).length := by
  obtain ⟨hc, hname⟩ := List.forall_mem_cons.mp h
  by_cases hback : c = '\\'
  · subst hback
    exact ⟨.symbol .backslash, 1, rfl, rfl, by simp⟩
  · have hrun : ∀ d ∈ name.takeWhile isNameChar, isNameChar d = true := fun d hd =>
      List.mem_takeWhile_imp hd
    obtain ⟨lexeme, length, hlexeme, hsegment, hlength⟩ := recognize_run afterOperand
      (isNameChar_of_isPlainChar hc hback) hrun (endsName_dropWhile hname text)
    rw [← List.append_assoc, List.takeWhile_append_dropWhile] at hlexeme
    refine ⟨lexeme, length, hlexeme, by simp [Lexeme.isNamePart, hsegment],
      Nat.le_trans hlength ?_⟩
    simpa using (List.takeWhile_sublist isNameChar).length_le

/-- A name leaves parts of a name behind. -/
theorem codeLexemes_name {name : Text} (h : IsPlainName name) (afterOperand : Bool) (text : Text) :
    ∃ parts flag, (∀ part ∈ parts, part.isNamePart = true) ∧
      codeLexemes afterOperand (name ++ ';' :: text) = parts ++ codeLexemes flag (';' :: text) := by
  induction hlength : name.length using Nat.strongRecOn generalizing name afterOperand with
  | _ length ih =>
    cases name with
    | nil => exact ⟨[], afterOperand, by simp, rfl⟩
    | cons c name =>
      obtain ⟨lexeme, taken, hlexeme, hpart, htaken⟩ := recognize_name afterOperand h text
      have hpositive := one_le_recognize afterOperand c (name ++ ';' :: text)
      rw [hlexeme] at hpositive
      have hclose : lexeme ≠ .closeTag := by
        rintro rfl
        cases hpart
      have hrest : IsPlainName ((c :: name).drop taken) := fun d hd => h d (List.mem_of_mem_drop hd)
      have hshorter : ((c :: name).drop taken).length < length := by
        rw [List.length_drop, hlength]
        simp only at hpositive
        rw [hlength] at htaken
        omega
      obtain ⟨parts, flag, hparts, heq⟩ := ih _ hshorter hrest (endsOperand lexeme) rfl
      refine ⟨lexeme :: parts, flag, List.forall_mem_cons.mpr ⟨hpart, hparts⟩, ?_⟩
      rw [List.cons_append, codeLexemes_of_some hlexeme hclose, ← List.cons_append,
        List.drop_append_of_le_length htaken, heq, List.cons_append]

end Namespacer.Grammar
