import Namespacer.Proofs.NameLexemes

/-!
# The lexemes of a header

The header of a class file is an open tag, a line that declares its namespace, and a line for
each import. A declaration is found among the lexemes of a text by where it stands: a statement
can begin there, and no brace is open.

* `Standing.namespaces`: the namespaces that are declared at top level.
* `lexemes_openTag`: what the scanner finds up to an open tag that no other tag precedes.
* `beginsWithNamespace_headedText`: behind blanks, the first statement is the declaration.
* `namespaceCount_headedText`: a header adds one declaration to those of the code behind it.
-/

namespace Namespacer.Grammar

/-! ## Declarations at top level -/

/-- What is known behind a lexeme: how many braces are open, and whether a statement can
begin. -/
structure Standing where
  depth : Nat
  begins : Bool
deriving DecidableEq, Repr

namespace Standing

/-- What is known behind a further lexeme. -/
def next (standing : Standing) : Lexeme → Standing
  | .openTag | .closeTag | .html | .symbol .semicolon => ⟨standing.depth, true⟩
  | .symbol .openBrace => ⟨standing.depth + 1, true⟩
  | .symbol .closeBrace => ⟨standing.depth - 1, true⟩
  | _ => ⟨standing.depth, false⟩

/-- Whether a lexeme begins the declaration of a namespace at top level. Before a separator the
keyword stands for the current namespace, as a part of a name. -/
def declares (standing : Standing) : Lexeme → Option Lexeme → Bool
  | .word _ (some .namespace_), following =>
    standing.depth == 0 && standing.begins && following != some (.symbol .backslash)
  | _, _ => false

/-- The number of namespaces that are declared at top level. -/
def namespaces : Standing → List Lexeme → Nat
  | _, [] => 0
  | standing, lexeme :: rest =>
    (if standing.declares lexeme rest.head? then 1 else 0) + namespaces (standing.next lexeme) rest

end Standing

/-- The number of namespaces that a text with the given lexemes declares at top level. -/
def namespaceCount (lexemes : List Lexeme) : Nat := Standing.namespaces ⟨0, true⟩ lexemes

namespace Standing

theorem declares_of_not_begins (depth : Nat) (lexeme : Lexeme) (following : Option Lexeme) :
    declares ⟨depth, false⟩ lexeme following = false := by
  unfold declares
  split
  · simp
  · rfl

theorem next_of_isNamePart (depth : Nat) {part : Lexeme} (h : part.isNamePart = true) :
    next ⟨depth, false⟩ part = ⟨depth, false⟩ := by
  rw [Lexeme.isNamePart, Bool.or_eq_true, beq_iff_eq] at h
  rcases h with h | rfl
  · cases part with
    | word text keyword => rfl
    | integer => rfl
    | float => rfl
    | _ => cases h
  · rfl

/-- Nothing is declared before the end of a statement by parts of a name. -/
theorem namespaces_name (depth : Nat) {parts : List Lexeme}
    (hparts : ∀ part ∈ parts, part.isNamePart = true) (rest : List Lexeme) :
    namespaces ⟨depth, false⟩ (parts ++ .symbol .semicolon :: rest) =
      namespaces ⟨depth, true⟩ rest := by
  induction parts with
  | nil => simp [namespaces, declares, next]
  | cons part parts ih =>
    rw [List.forall_mem_cons] at hparts
    rw [List.cons_append, namespaces, next_of_isNamePart depth hparts.1, ih hparts.2]
    simp [declares_of_not_begins]

end Standing

/-! ## The lines of a header -/

/-- What a line begins with: a keyword and the blank behind it. -/
structure IsLead (lead : Text) (lexeme : Lexeme) : Prop where
  reads : ∀ text, codeLexemes false (lead ++ text) = lexeme :: codeLexemes true text

theorem codeLexemes_space (afterOperand : Bool) (text : Text) :
    codeLexemes afterOperand (' ' :: text) = codeLexemes afterOperand text := by
  have hblank : recognize afterOperand (' ' :: text) = (none, 1) := rfl
  exact codeLexemes_of_none hblank

theorem codeLexemes_newline (afterOperand : Bool) (text : Text) :
    codeLexemes afterOperand ('\n' :: text) = codeLexemes afterOperand text := by
  have hblank : recognize afterOperand ('\n' :: text) = (none, 1) := rfl
  exact codeLexemes_of_none hblank

theorem isLead_namespace : IsLead "namespace " (.word "namespace" (some .namespace_)) := by
  refine ⟨fun text => ?_⟩
  have hword : recognize false ("namespace ".toList ++ text) =
    (some (.word "namespace" (some .namespace_)), 9) := rfl
  exact (codeLexemes_of_some hword (by decide)).trans
    (congrArg _ (codeLexemes_space true text))

theorem isLead_use : IsLead "use " (.word "use" (some .use_)) := by
  refine ⟨fun text => ?_⟩
  have hword : recognize false ("use ".toList ++ text) = (some (.word "use" (some .use_)), 3) := rfl
  exact (codeLexemes_of_some hword (by decide)).trans
    (congrArg _ (codeLexemes_space true text))

/-- A line with a keyword and a name leaves the keyword, parts of a name and a semicolon
behind. -/
theorem IsLead.codeLexemes_line {lead name : Text} {lexeme : Lexeme} (hlead : IsLead lead lexeme)
    (hname : IsPlainName name) (text : Text) :
    ∃ parts, (∀ part ∈ parts, part.isNamePart = true) ∧
      codeLexemes false (lead ++ (name ++ ';' :: '\n' :: text)) =
        lexeme :: (parts ++ .symbol .semicolon :: codeLexemes false text) := by
  obtain ⟨parts, flag, hparts, heq⟩ := codeLexemes_name hname true ('\n' :: text)
  have hsymbol : recognize flag (';' :: '\n' :: text) = (some (.symbol .semicolon), 1) := rfl
  have hend : codeLexemes flag (';' :: '\n' :: text) =
      .symbol .semicolon :: codeLexemes false text :=
    (codeLexemes_of_some hsymbol (by decide)).trans
      (congrArg _ (codeLexemes_newline false text))
  exact ⟨parts, hparts, by rw [hlead.reads, heq, hend]⟩

/-- Imports declare no namespace. -/
theorem namespaceCount_useBlock {imports : List Text} (h : ∀ name ∈ imports, IsPlainName name)
    (text : Text) :
    namespaceCount (codeLexemes false (useBlock imports ++ text)) =
      namespaceCount (codeLexemes false text) := by
  induction imports with
  | nil => rfl
  | cons name imports ih =>
    rw [List.forall_mem_cons] at h
    have hline : useBlock (name :: imports) ++ text =
        "use ".toList ++ (name ++ ';' :: '\n' :: (useBlock imports ++ text)) := by
      simp [useBlock]
    obtain ⟨parts, hparts, heq⟩ := isLead_use.codeLexemes_line h.1 (useBlock imports ++ text)
    rw [hline, heq, ← ih h.2, namespaceCount, Standing.namespaces]
    simp [Standing.declares, Standing.next, Standing.namespaces_name 0 hparts, namespaceCount]

/-- Whether a name begins with a word: with a character that may begin one, and then with
further characters of names up to a separator or to its end. -/
def BeginsWithWord (name : Text) : Prop :=
  ∃ c run tail, name = c :: (run ++ tail) ∧ isNameChar c = true ∧
    (∀ d ∈ run, isNameChar d = true) ∧ (tail = [] ∨ tail.head? = some '\\')

/-- The keyword in front of a name declares a namespace. -/
theorem declares_namespace {name : Text} (h : BeginsWithWord name) (text : Text) :
    ∃ rest, codeLexemes false ("namespace ".toList ++ (name ++ ';' :: text)) =
        .word "namespace" (some .namespace_) :: rest ∧
      Standing.declares ⟨0, true⟩ (.word "namespace" (some .namespace_)) rest.head? = true := by
  obtain ⟨c, run, tail, rfl, hc, hrun, htail⟩ := h
  have hends : EndsName (tail ++ ';' :: text) := by
    rcases htail with rfl | htail
    · exact .inr rfl
    · exact .inl (by rw [List.head?_append, htail]; rfl)
  obtain ⟨lexeme, length, hlexeme, hsegment, -⟩ := recognize_run true hc hrun hends
  have hclose : lexeme ≠ .closeTag := by
    rintro rfl
    cases hsegment
  refine ⟨_, isLead_namespace.reads _, ?_⟩
  rw [List.cons_append, List.append_assoc, codeLexemes_of_some hlexeme hclose]
  have hback : lexeme ≠ .symbol .backslash := by
    rintro rfl
    cases hsegment
  simp [Standing.declares, hback]

/-! ## In front of a header -/

theorem isSome_openTagLength?_iff {text : Text} :
    (openTagLength? text).isSome = true ↔ ['<', '?'] <+: text := by
  unfold openTagLength?
  split
  · rename_i rest
    refine iff_of_true ?_ ⟨rest, rfl⟩
    split
    · rfl
    split
    · rfl
    · rfl
  · rename_i hnot
    refine iff_of_false Bool.false_ne_true ?_
    rintro ⟨rest, rfl⟩
    exact hnot rest rfl

/-- Without a tag in it, everything before an open tag lies outside of the tags. -/
theorem htmlLength_append {before : Text} (h : ¬ ['<', '?'] <:+: before) (text : Text) :
    htmlLength (before ++ '<' :: '?' :: text) = before.length := by
  induction before with
  | nil =>
    rw [List.nil_append, htmlLength, if_pos]
    · rfl
    · exact isSome_openTagLength?_iff.mpr ⟨text, rfl⟩
  | cons c before ih =>
    have hbefore : ¬ ['<', '?'] <:+: before :=
      fun hin => h (hin.trans (List.suffix_cons c before).isInfix)
    rw [List.cons_append, htmlLength, if_neg, ih hbefore, List.length_cons, Nat.add_comm]
    rw [isSome_openTagLength?_iff, List.cons_prefix_cons]
    rintro ⟨rfl, hnext⟩
    cases before with
    | nil =>
      rw [List.nil_append, List.cons_prefix_cons] at hnext
      exact absurd hnext.1 (by decide)
    | cons d before =>
      rw [List.cons_append, List.cons_prefix_cons] at hnext
      exact h ⟨[], before, by simp [← hnext.1]⟩

/-- What lies outside of the tags leaves one lexeme behind if it is not blank. -/
def htmlLexemes (text : Text) : List Lexeme := if text.all isSpace then [] else [.html]

theorem map_lexeme_scanHtml {before : Text} (h : ¬ ['<', '?'] <:+: before) {steps : Nat}
    (position : Nat) {text : Text}
    (hsteps : (before ++ ("<?php".toList ++ text)).length < steps) :
    (scanHtml steps position (before ++ ("<?php".toList ++ text))).map (·.lexeme) =
      htmlLexemes before ++ .openTag :: codeLexemes false text := by
  obtain ⟨steps, rfl⟩ := Nat.exists_eq_add_one_of_ne_zero (Nat.ne_zero_of_lt hsteps)
  have hlength : htmlLength (before ++ ("<?php".toList ++ text)) = before.length :=
    htmlLength_append h ('p' :: 'h' :: 'p' :: text)
  have htag : openTagLength? ("<?php".toList ++ text) = some 5 := rfl
  have hdrop : ("<?php".toList ++ text).drop 5 = text := rfl
  have hcode : text.length < steps := by
    simp only [List.length_append] at hsteps
    change before.length + (5 + text.length) < steps + 1 at hsteps
    omega
  simp only [scanHtml, hlength, List.take_left, List.drop_left, htag, hdrop,
    apply_ite (List.map Token.lexeme), List.map_cons, map_lexeme_scanCode _ false hcode,
    htmlLexemes]
  split
  · rfl
  · rfl

/-- The lexemes of a text with an open tag that no other tag precedes. -/
theorem lexemes_openTag {before : Text} (h : ¬ ['<', '?'] <:+: before) (text : Text) :
    ∃ html, (html = [] ∨ html = [.html]) ∧ (before.all isSpace = true → html = []) ∧
      lexemes (before ++ ("<?php".toList ++ text)) =
        html ++ .openTag :: codeLexemes false text := by
  have hhtml : ∀ before : Text, htmlLexemes before = [] ∨ htmlLexemes before = [.html] := by
    intro before
    rw [htmlLexemes]
    split
    · exact .inl rfl
    · exact .inr rfl
  cases before with
  | nil =>
    exact ⟨[], .inl rfl, fun _ => rfl, map_lexeme_scanHtml h 0 (by simp; omega)⟩
  | cons c before =>
    have hbefore : ¬ ['<', '?'] <:+: before :=
      fun hin => h (hin.trans (List.suffix_cons c before).isInfix)
    rw [lexemes, List.cons_append, Token.scan]
    split
    · -- A byte order mark is passed over.
      refine ⟨htmlLexemes before, hhtml before, fun hblank => ?_,
        map_lexeme_scanHtml hbefore 3 (by simp; omega)⟩
      rw [List.all_cons, Bool.and_eq_true] at hblank
      exact if_pos hblank.2
    · exact ⟨htmlLexemes (c :: before), hhtml _, fun hblank => if_pos hblank,
        map_lexeme_scanHtml h 0 (by simp; omega)⟩

/-! ## Headers -/

/-- Whether the first statement of a text with the given lexemes declares a namespace, so that
only an open tag stands before it. -/
def beginsWithNamespace : List Lexeme → Bool
  | .openTag :: lexeme :: rest => Standing.declares ⟨0, true⟩ lexeme rest.head?
  | _ => false

/-- A text with a header in it: what stands before and behind it, and the names that it holds. -/
def headedText (before name : Text) (imports : List Text) (after : Text) : Text :=
  before ++ phpHeader ++ ("namespace ".toList ++ name ++ ";\n\n".toList) ++ useBlock imports ++
    after

section

variable {before name : Text} {imports : List Text} {after : Text}

/-- The lexemes of a text with a header are those of its lines, behind an open tag. -/
theorem lexemes_headedText (h : ¬ ['<', '?'] <:+: before) :
    ∃ html, (html = [] ∨ html = [.html]) ∧ (before.all isSpace = true → html = []) ∧
      lexemes (headedText before name imports after) =
        html ++ .openTag :: codeLexemes false ("namespace ".toList ++
          (name ++ ';' :: '\n' :: '\n' :: (useBlock imports ++ after))) := by
  obtain ⟨html, hcases, hblank, heq⟩ := lexemes_openTag h ('\n' :: '\n' :: ("namespace ".toList ++
    (name ++ ';' :: '\n' :: '\n' :: (useBlock imports ++ after))))
  refine ⟨html, hcases, hblank, ?_⟩
  have hheader : phpHeader = "<?php".toList ++ ['\n', '\n'] := rfl
  have hends : ";\n\n".toList = [';', '\n', '\n'] := rfl
  rw [codeLexemes_newline, codeLexemes_newline] at heq
  rw [← heq, headedText, hheader, hends]
  simp only [List.append_assoc, List.cons_append, List.nil_append]

/-- Behind blanks, the first statement of a text with a header is its declaration. -/
theorem beginsWithNamespace_headedText (hword : BeginsWithWord name)
    (hblank : before.all isSpace = true) :
    beginsWithNamespace (lexemes (headedText before name imports after)) = true := by
  have htag : ¬ ['<', '?'] <:+: before := by
    intro hin
    have hbracket := List.all_eq_true.mp hblank '<' (hin.subset List.mem_cons_self)
    cases hbracket
  obtain ⟨html, -, hnil, heq⟩ := lexemes_headedText htag
  obtain ⟨rest, hrest, hdeclares⟩ :=
    declares_namespace hword ('\n' :: '\n' :: (useBlock imports ++ after))
  rw [heq, hnil hblank, hrest]
  exact hdeclares

/-- A text with a header declares one namespace more than the code behind the header, if no
tag stands before it. -/
theorem namespaceCount_headedText (hword : BeginsWithWord name) (hname : IsPlainName name)
    (himports : ∀ name ∈ imports, IsPlainName name) (htag : ¬ ['<', '?'] <:+: before) :
    namespaceCount (lexemes (headedText before name imports after)) =
      1 + namespaceCount (codeLexemes false after) := by
  obtain ⟨html, hcases, -, heq⟩ := lexemes_headedText htag
  obtain ⟨parts, hparts, hline⟩ :=
    isLead_namespace.codeLexemes_line hname ('\n' :: (useBlock imports ++ after))
  obtain ⟨rest, hrest, hdeclares⟩ :=
    declares_namespace hword ('\n' :: '\n' :: (useBlock imports ++ after))
  have hsame := hline.symm.trans hrest
  rw [List.cons.injEq] at hsame
  -- Neither literal text nor an open tag changes where the declaration stands.
  have hstart : namespaceCount (html ++ .openTag :: .word "namespace" (some .namespace_) :: rest) =
      namespaceCount (.word "namespace" (some .namespace_) :: rest) := by
    rcases hcases with rfl | rfl
    · simp [namespaceCount, Standing.namespaces, Standing.declares, Standing.next]
    · simp [namespaceCount, Standing.namespaces, Standing.declares, Standing.next]
  rw [heq, hrest, hstart, namespaceCount, Standing.namespaces, if_pos hdeclares, ← hsame.2,
    codeLexemes_newline]
  refine congrArg (1 + ·) ?_
  exact (Standing.namespaces_name 0 hparts _).trans (namespaceCount_useBlock himports after)

end

end Namespacer.Grammar
