import Namespacer.Rendering
import Namespacer.Proofs.ImportTargets
import Namespacer.Proofs.Matching

/-!
# Inserted imports are recognised

A file is rendered with the imports that it needs. Looked at again, the rendered
text needs none: every name that was needed is found in an inserted line, and every
name that was dropped is still dropped, although the open tag beside it has changed.

* `occursIn_of_openTag`: what is found in a text is found again after the open tag
  has been replaced by a header.
* `isImported_of_useBlock`: a name is found among the inserted lines if one of them
  ends in it up to letter case.
* `resolveFile_render`: the import set of the rendered file is empty.

Names are taken to be plain: ASCII letters, digits, underscores and separators.
-/

namespace Namespacer

open Pattern Imports

/-- Whether a character may stand in a plain name. -/
def isPlainChar (c : Char) : Bool := c.isAlphanum || c == '_' || c == namespaceSeparator

/-- Whether a name is made of ASCII letters, digits, underscores and separators. -/
def IsPlainName (name : Text) : Prop := ∀ c ∈ name, isPlainChar c = true

instance (name : Text) : Decidable (IsPlainName name) :=
  decidable_of_iff (name.all isPlainChar = true) List.all_eq_true

/-! ## Plain characters -/

theorem toNat_lt_of_isPlainChar {c : Char} (h : isPlainChar c = true) : c.toNat < 128 := by
  delta isPlainChar Char.isAlphanum Char.isAlpha Char.isUpper Char.isLower Char.isDigit at h
  simp only [namespaceSeparator, Bool.or_eq_true, Bool.and_eq_true, decide_eq_true_eq,
    beq_iff_eq] at h
  rcases h with (((h | h) | h) | rfl) | rfl
  · exact Nat.lt_of_le_of_lt (UInt32.le_iff_toNat_le.mp h.2) (by decide)
  · exact Nat.lt_of_le_of_lt (UInt32.le_iff_toNat_le.mp h.2) (by decide)
  · exact Nat.lt_of_le_of_lt (UInt32.le_iff_toNat_le.mp h.2) (by decide)
  · decide
  · decide

theorem IsPlainName.isAscii {name : Text} (h : IsPlainName name) : Text.IsAscii name :=
  fun c hc => toNat_lt_of_isPlainChar (h c hc)

theorem isPathChar_of_isPlainChar {c : Char} (h : isPlainChar c = true) : isPathChar c = true := by
  have hascii := toNat_lt_of_isPlainChar h
  simp only [isPlainChar, Bool.or_eq_true] at h
  simp only [isPathChar, Text.isWord, Text.isAlphanumeric, if_pos hascii, Bool.or_eq_true]
  exact h

/-- No character of a plain name agrees with an angle bracket. -/
theorem ne_bracket_of_sameFolded {k c : Char} (hk : k.toNat < 128) (hne : k.toLower ≠ '<')
    (h : Text.sameFolded k c = true) : c ≠ '<' := by
  rintro rfl
  rcases Text.sameFolded_cases hk h with ⟨-, h⟩ | ⟨h, -⟩
  · exact hne h.symm
  · exact absurd h (by decide)

theorem toLower_ne_bracket {k : Char} (hk : isPlainChar k = true) : k.toLower ≠ '<' := by
  have := Text.forall_ascii (P := fun k => isPlainChar k = true → k.toLower ≠ '<') (by decide)
    (toNat_lt_of_isPlainChar hk)
  exact this hk

/-! ## What the searches take -/

theorem takes_all {P : Char → Prop} {ps : List Pattern} (h : ∀ p ∈ ps, p.Takes P) :
    (all ps).Takes P := by
  induction ps with
  | nil => trivial
  | cons p ps ih =>
    simp only [List.mem_cons, forall_eq_or_imp] at h
    cases ps with
    | nil => exact h.1
    | cons q ps => exact ⟨h.1, ih h.2⟩

theorem takes_folded {text : Text} (h : IsPlainName text) : (folded text).Takes (· ≠ '<') := by
  refine takes_all fun p hp => ?_
  obtain ⟨k, hk, rfl⟩ := List.mem_map.mp hp
  exact fun c hc =>
    ne_bracket_of_sameFolded (toNat_lt_of_isPlainChar (h k hk)) (toLower_ne_bracket (h k hk)) hc

theorem takes_blanks : blanks.Takes (· ≠ '<') := by
  rintro c hc rfl
  exact absurd hc (by decide)

theorem takes_gap : gap.Takes (· ≠ '<') := ⟨takes_blanks, takes_blanks⟩

theorem takes_path : (oneOrMore isPathChar).Takes (· ≠ '<') := by
  have h : ∀ c, isPathChar c = true → c ≠ '<' := by
    rintro c hc rfl
    exact absurd hc (by decide)
  exact ⟨h, h⟩

theorem takes_char {c : Char} (h : c ≠ '<') : (char c).Takes (· ≠ '<') := by
  intro d hd
  rwa [beq_iff_eq.mp hd]

theorem takes_importStart : importStart.Takes (· ≠ '<') := by
  refine takes_all ?_
  simp only [List.mem_cons, List.not_mem_nil, or_false, forall_eq_or_imp, forall_eq]
  exact ⟨trivial, takes_blanks, takes_folded (by decide), takes_gap,
    takes_char (by decide), trivial⟩

/-- An import of a plain name covers no angle bracket. -/
theorem takes_importOf {name : Text} (h : IsPlainName name) : (importOf name).Takes (· ≠ '<') := by
  refine ⟨takes_all ?_, takes_all ?_⟩
  · simp only [List.mem_cons, List.not_mem_nil, or_false, forall_eq_or_imp, forall_eq]
    exact ⟨takes_importStart, ⟨⟨takes_path, takes_char (by decide)⟩, trivial⟩, takes_folded h,
      takes_blanks, takes_char (by decide)⟩
  · simp only [List.mem_cons, List.not_mem_nil, or_false, forall_eq_or_imp, forall_eq]
    exact ⟨takes_importStart, takes_path, takes_gap, takes_folded (by decide), takes_gap,
      takes_folded h, takes_blanks, takes_char (by decide)⟩

/-- A declaration of a plain name covers no angle bracket. -/
theorem takes_declarationOf {name : Text} (h : IsPlainName name) :
    (declarationOf name).Takes (· ≠ '<') := by
  refine takes_all ?_
  simp only [List.mem_cons, List.not_mem_nil, or_false, forall_eq_or_imp, forall_eq]
  exact ⟨trivial, ⟨takes_folded (by decide), takes_folded (by decide), takes_folded (by decide),
    takes_folded (by decide)⟩, takes_gap, takes_folded h, trivial⟩

theorem isLineLocal_all {ps : List Pattern} (h : ∀ p ∈ ps, p.isLineLocal = true) :
    (all ps).isLineLocal = true := by
  induction ps with
  | nil => rfl
  | cons p ps ih =>
    simp only [List.mem_cons, forall_eq_or_imp] at h
    cases ps with
    | nil => exact h.1
    | cons q ps =>
      simp only [all, isLineLocal, Bool.and_eq_true]
      exact ⟨h.1, ih h.2⟩

theorem isLineLocal_folded (text : Text) : (folded text).isLineLocal = true := by
  refine isLineLocal_all fun p hp => ?_
  obtain ⟨k, -, rfl⟩ := List.mem_map.mp hp
  rfl

theorem isLineLocal_importOf (name : Text) : (importOf name).isLineLocal = true := by
  have hname := isLineLocal_folded name
  simp only [importOf, isLineLocal, Bool.and_eq_true]
  refine ⟨isLineLocal_all ?_, isLineLocal_all ?_⟩
  · simp only [List.mem_cons, List.not_mem_nil, or_false, forall_eq_or_imp, forall_eq]
    exact ⟨rfl, rfl, hname, rfl, rfl⟩
  · simp only [List.mem_cons, List.not_mem_nil, or_false, forall_eq_or_imp, forall_eq]
    exact ⟨rfl, rfl, rfl, rfl, rfl, hname, rfl, rfl⟩

theorem isLineLocal_declarationOf (name : Text) : (declarationOf name).isLineLocal = true := by
  refine isLineLocal_all ?_
  simp only [List.mem_cons, List.not_mem_nil, or_false, forall_eq_or_imp, forall_eq]
  exact ⟨rfl, rfl, rfl, isLineLocal_folded name, rfl⟩

/-! ## What was found is found again -/

/-- An open tag is an angle bracket, a question mark and possibly three letters. -/
theorem openTag_covers {before : Option Char} {covered after : Text}
    (h : openTag.Covers before covered after) :
    ∃ tag, covered = '<' :: '?' :: tag ∧
      (tag = [] ∨ List.Forall₂ (fun k c => Text.sameFolded k c = true) "php".toList tag) := by
  rw [openTag, covers_all_cons] at h
  obtain ⟨u, v, rfl, hu, h⟩ := h
  rw [covers_literal] at hu
  rw [covers_all_cons] at h
  obtain ⟨v, w, rfl, hv, hw, -⟩ := h
  subst hu hw
  refine ⟨v, by simp, ?_⟩
  rcases hv with ⟨php, edge, rfl, hphp, rfl, -⟩ | hv
  · exact .inr (by simpa using covers_folded.mp hphp)
  · exact .inl hv

/-- A part of a text without a character lies before that character or after it. -/
theorem before_or_after {c : Char} {before after skipped covered rest : Text}
    (hnot : c ∉ covered) (h : before ++ c :: after = skipped ++ covered ++ rest) :
    (∃ n, before = skipped ++ covered ++ n ∧ rest = n ++ c :: after) ∨
      ∃ m, skipped = before ++ c :: m ∧ after = m ++ covered ++ rest := by
  induction before generalizing skipped covered with
  | nil =>
    cases skipped with
    | nil =>
      cases covered with
      | nil => exact .inl ⟨[], rfl, h.symm⟩
      | cons d covered =>
        simp only [List.nil_append, List.cons_append, List.cons.injEq] at h
        exact absurd (h.1 ▸ List.mem_cons_self) hnot
    | cons d skipped =>
      simp only [List.nil_append, List.cons_append, List.cons.injEq] at h
      obtain ⟨rfl, rfl⟩ := h
      exact .inr ⟨skipped, rfl, rfl⟩
  | cons b before ih =>
    cases skipped with
    | nil =>
      cases covered with
      | nil => exact .inl ⟨b :: before, rfl, h.symm⟩
      | cons d covered =>
        simp only [List.nil_append, List.cons_append, List.cons.injEq] at h
        obtain ⟨rfl, h⟩ := h
        rcases @ih [] covered (fun hmem => hnot (List.mem_cons_of_mem _ hmem)) h with
          ⟨n, rfl, hrest⟩ | ⟨m, hm, -⟩
        · exact .inl ⟨n, rfl, hrest⟩
        · simp at hm
    | cons d skipped =>
      simp only [List.cons_append, List.cons.injEq] at h
      obtain ⟨rfl, h⟩ := h
      rcases ih hnot h with ⟨n, rfl, hrest⟩ | ⟨m, rfl, hafter⟩
      · exact .inl ⟨n, rfl, hrest⟩
      · exact .inr ⟨m, rfl, hafter⟩

/-- What is found in a text is found again after the open tag has been replaced by
a header, if it covers no angle bracket. Only a match that begins in the tag or
right behind it could be lost. -/
theorem occursIn_of_openTag {p : Pattern} (hlocal : p.isLineLocal = true)
    (htakes : p.Takes (· ≠ '<')) {before tag after header : Text}
    (hbegin : ∀ t₁ t₂ covered rest, tag = t₁ ++ t₂ → t₂ ++ after = covered ++ rest →
      p.Covers (behind (some '<') t₁) covered rest → t₂ = [] ∧ p.Covers (some '\n') covered rest)
    (hheader : header.head? = some '<') (hend : ∀ b, behind b header = some '\n')
    (h : p.occursIn (before ++ '<' :: tag ++ after) = true) :
    p.occursIn (before ++ header ++ after) = true := by
  rw [occursIn_iff] at h ⊢
  obtain ⟨skipped, covered, rest, htext, hcovers⟩ := h
  have hnot : '<' ∉ covered := fun hmem => hcovers.all htakes _ hmem rfl
  rw [List.append_assoc, List.cons_append] at htext
  rcases before_or_after hnot htext with ⟨n, rfl, rfl⟩ | ⟨m, rfl, hcut⟩
  · refine ⟨skipped, covered, n ++ header ++ after, by simp, ?_⟩
    refine Covers.congr_after hlocal ?_ hcovers
    cases n <;> simp [hheader]
  · rw [behind_append, behind_cons] at hcovers
    rw [List.append_assoc, List.append_eq_append_iff] at hcut
    rcases hcut with ⟨gone, rfl, hcut⟩ | ⟨t₂, rfl, hcut⟩
    · refine ⟨before ++ header ++ gone, covered, rest, by simp [hcut], ?_⟩
      rw [behind_append, behind_append, hend]
      cases gone with
      | nil => exact (hbegin tag [] covered rest (by simp) hcut (by simpa using hcovers)).2
      | cons d gone => simpa [behind_append] using hcovers
    · obtain ⟨rfl, hcovers⟩ := hbegin m t₂ covered rest rfl hcut.symm hcovers
      refine ⟨before ++ header, covered, rest, by simp_all, ?_⟩
      rwa [behind_append, hend]

/-- The characters of an open tag behind its angle bracket. -/
def isTagChar (c : Char) : Prop :=
  c = '?' ∨ c.toNat < 128 ∧ (c.toLower = 'p' ∨ c.toLower = 'h')

theorem isTagChar_of_openTag {tag : Text}
    (h : tag = [] ∨ List.Forall₂ (fun k c => Text.sameFolded k c = true) "php".toList tag) :
    ∀ c ∈ '?' :: tag, isTagChar c := by
  have hletter : ∀ {k c : Char}, k = 'p' ∨ k = 'h' → Text.sameFolded k c = true →
      isTagChar c := by
    rintro k c hk hfold
    rcases hk with rfl | rfl
    · rcases Text.sameFolded_cases (by decide) hfold with ⟨hc, hlower⟩ | ⟨-, h⟩
      · exact .inr ⟨hc, .inl hlower⟩
      · exact absurd h (by decide)
    · rcases Text.sameFolded_cases (by decide) hfold with ⟨hc, hlower⟩ | ⟨-, h⟩
      · exact .inr ⟨hc, .inr hlower⟩
      · exact absurd h (by decide)
  rcases h with rfl | h
  · simp [isTagChar]
  · change List.Forall₂ _ ['p', 'h', 'p'] tag at h
    simp only [List.forall₂_cons_left_iff, List.forall₂_nil_left_iff] at h
    obtain ⟨c₁, _, h₁, ⟨c₂, _, h₂, ⟨c₃, _, h₃, rfl, rfl⟩, rfl⟩, rfl⟩ := h
    simp only [List.mem_cons, List.not_mem_nil, or_false, forall_eq_or_imp, forall_eq]
    exact ⟨.inl rfl, hletter (.inl rfl) h₁, hletter (.inr rfl) h₂, hletter (.inl rfl) h₃⟩

theorem behind_some (c : Char) (text : Text) :
    ∃ d, behind (some c) text = some d ∧ (d = c ∨ d ∈ text) := by
  induction text generalizing c with
  | nil => exact ⟨c, rfl, .inl rfl⟩
  | cons b text ih =>
    obtain ⟨d, hd, h⟩ := ih b
    rw [behind_cons]
    exact ⟨d, hd, .inr (List.mem_cons.mpr h)⟩

/-- An import begins at the start of a line. -/
theorem startsLine_of_importOf {name : Text} {before : Option Char} {covered after : Text}
    (h : (importOf name).Covers before covered after) : startsLine before := by
  rcases h with h | h
  · rw [covers_all_cons] at h
    obtain ⟨u, v, -, hstart, -⟩ := h
    rw [importStart, covers_all_cons] at hstart
    obtain ⟨-, -, -, ⟨-, hline⟩, -⟩ := hstart
    exact hline
  · rw [covers_all_cons] at h
    obtain ⟨u, v, -, hstart, -⟩ := h
    rw [importStart, covers_all_cons] at hstart
    obtain ⟨-, -, -, ⟨-, hline⟩, -⟩ := hstart
    exact hline

/-- Whether the first letter of a declaration's keyword agrees with a character. -/
def isDeclarationLetter (c : Char) : Prop :=
  ∃ k ∈ ['c', 'i', 't', 'e'], Text.sameFolded k c = true

theorem toNat_lt_of_mem_letters {k : Char} (hk : k ∈ ['c', 'i', 't', 'e']) : k.toNat < 128 := by
  have hall : (['c', 'i', 't', 'e'].all fun k => decide (k.toNat < 128)) = true := by decide
  exact of_decide_eq_true (List.all_eq_true.mp hall k hk)

/-- A declaration begins behind the end of a word, with the first letter of a
keyword. -/
theorem begin_of_declarationOf {name : Text} {before : Option Char} {covered after : Text}
    (h : (declarationOf name).Covers before covered after) :
    (∃ c rest, covered = c :: rest ∧ isDeclarationLetter c) ∧
      Place.atWordEdge ⟨before, covered ++ after⟩ = true := by
  have hkeyword : ∀ {k : Char} {word : Text} {b : Option Char} {u v : Text},
      k ∈ ['c', 'i', 't', 'e'] → (folded (k :: word)).Covers b u v →
        ∃ c rest, u = c :: rest ∧ isDeclarationLetter c := by
    intro k word b u v hk hu
    rw [covers_folded, List.forall₂_cons_left_iff] at hu
    obtain ⟨c, rest, hc, -, rfl⟩ := hu
    exact ⟨c, rest, rfl, k, hk, hc⟩
  rw [declarationOf, covers_all_cons] at h
  obtain ⟨_, w, rfl, ⟨rfl, hedge⟩, h⟩ := h
  refine ⟨?_, by simpa using hedge⟩
  rw [covers_all_cons] at h
  obtain ⟨u, v, rfl, hu, -⟩ := h
  have hletter : ∃ c rest, u = c :: rest ∧ isDeclarationLetter c := by
    rcases hu with hu | hu | hu | hu
    · exact hkeyword (by decide) hu
    · exact hkeyword (by decide) hu
    · exact hkeyword (by decide) hu
    · exact hkeyword (by decide) hu
  obtain ⟨c, rest, rfl, hc⟩ := hletter
  exact ⟨c, rest ++ v, rfl, hc⟩

theorem isWord_of_isDeclarationLetter {c : Char} (h : isDeclarationLetter c) :
    Text.isWord c = true := by
  obtain ⟨k, hk, hfold⟩ := h
  have hascii := toNat_lt_of_mem_letters hk
  rcases Text.sameFolded_cases hascii hfold with ⟨hc, hlower⟩ | ⟨hextra, -⟩
  · refine Text.forall_ascii
      (P := fun c => (['c', 'i', 't', 'e'].any fun k => c.toLower == k.toLower) = true →
        Text.isWord c = true) (by decide) hc ?_
    exact List.any_eq_true.mpr ⟨k, hk, beq_iff_eq.mpr hlower⟩
  · exact Text.isWord_of_isFoldedExtra hextra

theorem not_isTagChar_of_isDeclarationLetter {c : Char} (h : isDeclarationLetter c) :
    ¬ isTagChar c := by
  obtain ⟨k, hk, hfold⟩ := h
  have hascii := toNat_lt_of_mem_letters hk
  have hlow : ∀ k ∈ ['c', 'i', 't', 'e'], k.toLower ≠ 'p' ∧ k.toLower ≠ 'h' ∧ k.toLower ≠ '?' := by
    have hall : (['c', 'i', 't', 'e'].all fun k =>
        decide (k.toLower ≠ 'p' ∧ k.toLower ≠ 'h' ∧ k.toLower ≠ '?')) = true := by decide
    exact fun k hk => of_decide_eq_true (List.all_eq_true.mp hall k hk)
  rcases Text.sameFolded_cases hascii hfold with ⟨-, hlower⟩ | ⟨hextra, -⟩
  · rintro (rfl | ⟨-, hp | hh⟩)
    · exact (hlow k hk).2.2 hlower.symm
    · exact (hlow k hk).1 (hlower ▸ hp)
    · exact (hlow k hk).2.1 (hlower ▸ hh)
  · simp only [Text.isFoldedExtra, Bool.or_eq_true, beq_iff_eq] at hextra
    rintro (rfl | ⟨hc, -⟩)
    · exact absurd hextra (by decide)
    · omega

section Replaced

variable {name before tag after header : Text}

/-- A name that is imported in a text is imported after its open tag has been
replaced. -/
theorem isImported_of_openTag (hname : IsPlainName name) (htag : ∀ c ∈ tag, isTagChar c)
    (hheader : header.head? = some '<') (hend : ∀ b, behind b header = some '\n')
    (h : isImported name (before ++ '<' :: tag ++ after) = true) :
    isImported name (before ++ header ++ after) = true := by
  refine occursIn_of_openTag (isLineLocal_importOf name) (takes_importOf hname) ?_ hheader hend h
  -- no line starts in the tag or right behind it
  intro t₁ t₂ covered rest htag' _ hcovers
  exfalso
  obtain ⟨d, hd, hmem⟩ := behind_some '<' t₁
  have hline := startsLine_of_importOf hcovers
  rw [hd] at hline
  obtain rfl : d = '\n' := by simpa [startsLine] using hline
  rcases hmem with h | hmem
  · exact absurd h (by decide)
  · rcases htag '\n' (by simp [htag', hmem]) with h | ⟨-, h⟩
    · exact absurd h (by decide)
    · exact absurd h (by decide)

/-- A name that is declared in a text is declared after its open tag has been
replaced. -/
theorem isDeclared_of_openTag (hname : IsPlainName name) (htag : ∀ c ∈ tag, isTagChar c)
    (hheader : header.head? = some '<') (hend : ∀ b, behind b header = some '\n')
    (h : isDeclared name (before ++ '<' :: tag ++ after) = true) :
    isDeclared name (before ++ header ++ after) = true := by
  refine occursIn_of_openTag (isLineLocal_declarationOf name) (takes_declarationOf hname) ?_
    hheader hend h
  intro t₁ t₂ covered rest htag' hcut hcovers
  obtain ⟨⟨c, covered', rfl, hc⟩, hedge⟩ := begin_of_declarationOf hcovers
  -- no keyword begins in the tag, so the declaration begins right behind it
  obtain rfl : t₂ = [] := by
    cases t₂ with
    | nil => rfl
    | cons d t₂ =>
      simp only [List.cons_append, List.cons.injEq] at hcut
      refine absurd (htag c ?_) (not_isTagChar_of_isDeclarationLetter hc)
      simp [htag', hcut.1]
  refine ⟨rfl, Covers.congr_before (isLineLocal_declarationOf name) ?_ (fun _ => .inr rfl) hcovers⟩
  have hword := isWord_of_isDeclarationLetter hc
  simp only [Place.atWordEdge, List.cons_append, List.head?_cons, Option.any_some, hword,
    bne_iff_ne, ne_eq, Bool.not_eq_true] at hedge
  rw [hedge]
  decide

end Replaced

/-! ## What is inserted is found -/

theorem mem_useBlock {qualified : Text} {imports : List Text} (h : qualified ∈ imports) :
    ∃ u v, useBlock imports = u ++ ("use ".toList ++ qualified ++ ";\n".toList) ++ v ∧
      behind (some '\n') u = some '\n' := by
  induction imports with
  | nil => simp at h
  | cons first imports ih =>
    have hcons : useBlock (first :: imports) =
        ("use ".toList ++ first ++ ";\n".toList) ++ useBlock imports := rfl
    rcases List.mem_cons.mp h with rfl | h
    · exact ⟨[], useBlock imports, hcons, rfl⟩
    · obtain ⟨u, v, hblock, hu⟩ := ih h
      refine ⟨("use ".toList ++ first ++ ";\n".toList) ++ u, v, ?_, ?_⟩
      · rw [hcons, hblock]
        simp only [List.append_assoc]
      · rw [behind_append, behind_append]
        exact hu

/-- Whether a text is the part of a qualified name before its last segments. -/
def IsSpacePart (space : Text) : Prop :=
  space = [] ∨ ∃ w, w ≠ [] ∧ (∀ c ∈ w, isPathChar c = true) ∧ space = w ++ [namespaceSeparator]

/-- A name is found in a line that imports it under some namespace. -/
theorem isImported_of_useLine {name space last before after : Text} (hspace : IsSpacePart space)
    (hlast : List.Forall₂ (fun k c => Text.sameFolded k c = true) name last)
    (hbefore : startsLine (behind none before)) :
    isImported name (before ++ ("use ".toList ++ (space ++ last) ++ ";\n".toList) ++ after) =
      true := by
  refine occursIn_iff.mpr ⟨before, "use ".toList ++ (space ++ (last ++ [';'])), '\n' :: after,
    by simp, .inl ?_⟩
  rw [covers_all_cons]
  refine ⟨_, _, rfl, ?_, ?_⟩
  · rw [importStart, covers_all_cons]
    refine ⟨[], "use ".toList, rfl, ⟨rfl, hbefore⟩, ?_⟩
    rw [covers_all_cons]
    refine ⟨[], "use ".toList, rfl, by simp [blanks, Covers], ?_⟩
    rw [covers_all_cons]
    refine ⟨"use".toList, " ".toList, rfl, ?_, ?_⟩
    · rw [covers_folded]
      exact List.forall₂_same.mpr fun c _ => by simp [Text.sameFolded]
    rw [covers_all_cons]
    refine ⟨" ".toList, [], rfl, ?_, .inr rfl⟩
    exact covers_oneOrMore.mpr ⟨by decide, List.all_eq_true.mp (by decide)⟩
  rw [covers_all_cons]
  refine ⟨space, last ++ [';'], rfl, ?_, ?_⟩
  · rcases hspace with rfl | ⟨w, hw, hpath, rfl⟩
    · exact .inr rfl
    · exact .inl ⟨w, _, rfl, covers_oneOrMore.mpr ⟨hw, hpath⟩, covers_char.mpr rfl⟩
  rw [covers_all_cons]
  refine ⟨last, [';'], rfl, covers_folded.mpr hlast, ?_⟩
  rw [covers_all_cons]
  exact ⟨[], [';'], rfl, by simp [blanks, Covers], covers_char.mpr rfl⟩

/-- A name is found among the inserted lines if one of them ends in it. -/
theorem isImported_of_useBlock {name space last before after : Text} {imports : List Text}
    (hmem : space ++ last ∈ imports) (hspace : IsSpacePart space)
    (hlast : List.Forall₂ (fun k c => Text.sameFolded k c = true) name last)
    (hbefore : behind none before = some '\n') :
    isImported name (before ++ useBlock imports ++ after) = true := by
  obtain ⟨u, v, hblock, hu⟩ := mem_useBlock hmem
  have hline : startsLine (behind none (before ++ u)) := by
    rw [behind_append, hbefore, hu]
    exact .inr rfl
  have := @isImported_of_useLine name space last (before ++ u) (v ++ after) hspace hlast hline
  rw [hblock]
  simpa only [List.append_assoc] using this

theorem forall₂_sameFolded {name last : Text} (hname : Text.IsAscii name)
    (hlast : Text.IsAscii last) (h : last.map Char.toLower = name.map Char.toLower) :
    List.Forall₂ (fun k c => Text.sameFolded k c = true) name last := by
  induction name generalizing last with
  | nil =>
    obtain rfl : last = [] := by simpa using h
    exact .nil
  | cons k name ih =>
    cases last with
    | nil => simp at h
    | cons c last =>
      simp only [Text.IsAscii, List.mem_cons, forall_eq_or_imp] at hname hlast
      simp only [List.map_cons, List.cons.injEq] at h
      exact .cons (Text.sameFolded_of_toLower_eq hname.1 hlast.1 h.1.symm)
        (ih hname.2 hlast.2 h.2)

/-- The files of a registry have plain type names and plain namespaces. -/
def HasPlainNames (files : List SourceFile) : Prop :=
  ∀ file ∈ files, IsPlainName file.typeName ∧ ∀ space ∈ file.namespaceName, IsPlainName space

theorem HasPlainNames.namespace {files : List SourceFile} (h : HasPlainNames files)
    {file : SourceFile} (hfile : file ∈ files) {space : Text}
    (hspace : file.properNamespace? = some space) : IsPlainName space ∧ space ≠ [] := by
  rw [SourceFile.properNamespace?, Option.filter_eq_some_iff] at hspace
  exact ⟨(h file hfile).2 space hspace.1, by simpa using hspace.2⟩

theorem isPlainName_target {files : List SourceFile} (hfiles : HasPlainNames files) {name : Text}
    (hname : IsPlainName name) : IsPlainName (target (SymbolIndex.build files).1 name) := by
  rcases target_cases files name with h | ⟨file, hfile, space, hspace, h, -⟩
  · rwa [h]
  · rw [h]
    intro c hc
    rcases List.mem_append.mp hc with hc | hc
    · exact (hfiles.namespace hfile hspace).1 c hc
    · rcases List.mem_cons.mp hc with rfl | hc
      · decide
      · exact (hfiles file hfile).1 c hc

/-- In every letter case, the target of a name ends in the name. -/
theorem exists_last_of_target {files : List SourceFile} (hfiles : HasPlainNames files)
    {name qualified : Text} (hname : IsPlainName name) (hplain : IsPlainName qualified)
    (h : Text.lower qualified = Text.lower (target (SymbolIndex.build files).1 name)) :
    ∃ space last, qualified = space ++ last ∧ IsSpacePart space ∧
      List.Forall₂ (fun k c => Text.sameFolded k c = true) name last := by
  rw [Text.lower_of_ascii hplain.isAscii,
    Text.lower_of_ascii (isPlainName_target hfiles hname).isAscii] at h
  rcases target_cases files name with htarget | ⟨file, hfile, space, hspace, htarget, hlower⟩
  · rw [htarget] at h
    exact ⟨[], qualified, rfl, .inl rfl, forall₂_sameFolded hname.isAscii hplain.isAscii h⟩
  · obtain ⟨hspacePlain, hne⟩ := hfiles.namespace hfile hspace
    rw [Text.lower_of_ascii (hfiles file hfile).1.isAscii, Text.lower_of_ascii hname.isAscii]
      at hlower
    rw [htarget, List.map_append, List.map_cons, hlower, List.map_eq_append_iff] at h
    obtain ⟨u, v, rfl, hu, hv⟩ := h
    rw [List.map_eq_cons_iff] at hv
    obtain ⟨c, last, rfl, hc, hlast⟩ := hv
    have hplain' : ∀ d ∈ u ++ c :: last, isPlainChar d = true := hplain
    simp only [List.mem_append, List.mem_cons] at hplain'
    obtain rfl : c = namespaceSeparator := by
      refine Text.forall_ascii (P := fun c =>
        c.toLower = namespaceSeparator.toLower → c = namespaceSeparator) (by decide)
        (toNat_lt_of_isPlainChar (hplain' c (.inr (.inl rfl)))) hc
    refine ⟨u ++ [namespaceSeparator], last, by simp, .inr ⟨u, ?_, ?_, rfl⟩, ?_⟩
    · rintro rfl
      exact hne (by simpa using hu.symm)
    · exact fun d hd => isPathChar_of_isPlainChar (hplain' d (.inl hd))
    · exact forall₂_sameFolded hname.isAscii
        (fun d hd => toNat_lt_of_isPlainChar (hplain' d (.inr (.inr hd)))) hlast

/-! ## Rendered files -/

theorem replaceOpenTag_eq_some {header contents text : Text}
    (h : replaceOpenTag header contents = some text) :
    ∃ before tag after, contents = before ++ '<' :: tag ++ after ∧ (∀ c ∈ tag, isTagChar c) ∧
      text = before ++ header ++ after := by
  rw [replaceOpenTag, Option.map_eq_some_iff] at h
  obtain ⟨⟨before, covered, after⟩, hfirst, rfl⟩ := h
  obtain ⟨rfl, hcovers⟩ := first?_eq_some hfirst
  obtain ⟨tag, rfl, htag⟩ := openTag_covers hcovers
  exact ⟨before, '?' :: tag, after, rfl, isTagChar_of_openTag htag, rfl⟩

/-- A text keeps what a file says about plain names and says what the file
imports. -/
structure Recognises (file : SourceFile) (text : Text) : Prop where
  imported : ∀ {name}, IsPlainName name → isImported name file.contents = true →
    isImported name text = true
  declared : ∀ {name}, IsPlainName name → isDeclared name file.contents = true →
    isDeclared name text = true
  inserted : ∀ {name space last}, space ++ last ∈ file.imports → IsSpacePart space →
    List.Forall₂ (fun k c => Text.sameFolded k c = true) name last → isImported name text = true

/-- The text with a header in place of its open tag, if the header ends in the
imports. -/
theorem recognises_of_replaceOpenTag {file : SourceFile} {head text : Text}
    (hhead : head.head? = some '<') (hend : ∀ b, behind b head = some '\n')
    (h : replaceOpenTag (head ++ useBlock file.imports) file.contents = some text) :
    Recognises file text := by
  obtain ⟨before, tag, after, hcontents, htag, rfl⟩ := replaceOpenTag_eq_some h
  have hheader : (head ++ useBlock file.imports).head? = some '<' := by
    rw [List.head?_append, hhead]
    rfl
  have hblock : ∀ imports, behind (some '\n') (useBlock imports) = some '\n' := by
    intro imports
    induction imports with
    | nil => rfl
    | cons first imports ih =>
      change behind (some '\n') (("use ".toList ++ first ++ ";\n".toList) ++ useBlock imports) = _
      rw [behind_append, behind_append]
      exact ih
  have hheaderEnd : ∀ b, behind b (head ++ useBlock file.imports) = some '\n' := by
    intro b
    rw [behind_append, hend, hblock]
  refine ⟨fun hname h => ?_, fun hname h => ?_, fun hmem hspace hlast => ?_⟩
  · exact isImported_of_openTag hname htag hheader hheaderEnd (hcontents ▸ h)
  · exact isDeclared_of_openTag hname htag hheader hheaderEnd (hcontents ▸ h)
  · rw [← List.append_assoc before head]
    exact isImported_of_useBlock hmem hspace hlast (by rw [behind_append, hend])

/-- What is found in a text is found behind lines put before it. -/
theorem occursIn_append {p : Pattern} (hlocal : p.isLineLocal = true) {head text : Text}
    (hend : behind none head = some '\n') (h : p.occursIn text = true) :
    p.occursIn (head ++ text) = true := by
  rw [occursIn_iff] at h ⊢
  obtain ⟨skipped, covered, after, rfl, hcovers⟩ := h
  refine ⟨head ++ skipped, covered, after, by simp, ?_⟩
  rw [behind_append, hend]
  cases skipped with
  | nil => exact Covers.congr_before hlocal (by decide) (fun _ => .inr rfl) hcovers
  | cons c skipped => exact hcovers

theorem recognises_of_block {file : SourceFile} :
    Recognises file
      (phpHeader ++ useBlock file.imports ++ "\n?>\n\n".toList ++ file.contents) := by
  have hend : behind none (phpHeader ++ useBlock file.imports ++ "\n?>\n\n".toList) =
      some '\n' := by
    rw [behind_append]
    rfl
  refine ⟨fun _ h => ?_, fun _ h => ?_, fun hmem hspace hlast => ?_⟩
  · exact occursIn_append (isLineLocal_importOf _) hend h
  · exact occursIn_append (isLineLocal_declarationOf _) hend h
  · rw [List.append_assoc]
    exact isImported_of_useBlock hmem hspace hlast rfl

theorem recognises_of_render {file : SourceFile} {text : Text} (h : file.render = some text) :
    Recognises file text := by
  unfold SourceFile.render at h
  split at h
  · unfold renderTemplate at h
    split at h
    · simp at h
    · dsimp only at h
      split at h
      · exact recognises_of_replaceOpenTag rfl (fun _ => rfl) h
      · obtain rfl := Option.some.inj h
        exact recognises_of_block
  · refine recognises_of_replaceOpenTag ?_ ?_ h
    · rfl
    · intro b
      rw [behind_append]
      cases file.properNamespace? with
      | none => rfl
      | some space =>
        dsimp only
        rw [behind_append]
        rfl

/-- A file with the imports that it needs for some candidates. -/
def withImports (file : SourceFile) (candidates : List Candidate) (index : SymbolIndex) :
    SourceFile :=
  { file with imports := resolveFile file candidates index }

/-- **Inserted imports are recognised.** A file that is rendered with the imports
it needs for some candidates needs no import for them afterwards. -/
theorem resolveFile_render {files : List SourceFile} {file : SourceFile}
    {candidates : List Candidate} {text : Text} (hfiles : HasPlainNames files)
    (hcandidates : ∀ name ∈ Candidate.namesAll candidates, IsPlainName name)
    (h : (withImports file candidates (SymbolIndex.build files).1).render = some text) :
    resolveFile { withImports file candidates (SymbolIndex.build files).1 with contents := text }
      candidates (SymbolIndex.build files).1 = [] := by
  have htext := recognises_of_render h
  refine resolveFile_eq_nil fun name hname => ?_
  have hplain := hcandidates name hname
  by_contra hagain
  rw [Bool.not_eq_false] at hagain
  -- what dropped a name before drops it again, so the name was needed before
  have hneeded : isNeeded file (SymbolIndex.build files).1 name = true := by
    simp only [isNeeded, Bool.and_eq_true, Bool.not_eq_true'] at hagain ⊢
    obtain ⟨⟨⟨hself, himported⟩, hdeclared⟩, htarget⟩ := hagain
    refine ⟨⟨⟨hself, ?_⟩, ?_⟩, htarget⟩
    · by_contra himport
      rw [Bool.not_eq_false] at himport
      exact absurd (htext.imported hplain himport) (by simp [himported])
    · by_contra hdeclare
      rw [Bool.not_eq_false] at hdeclare
      exact absurd (htext.declared hplain hdeclare) (by simp [hdeclared])
  obtain ⟨qualified, hmem, hlower⟩ := exists_mem_resolveFile hname hneeded
  obtain ⟨other, hother, -, rfl⟩ := mem_resolveFile hmem
  obtain ⟨space, last, hcut, hspace, hlast⟩ := exists_last_of_target hfiles hplain
    (isPlainName_target hfiles (hcandidates other hother)) hlower
  have himported := htext.inserted (hcut ▸ hmem) hspace hlast
  simp only [isNeeded, Bool.and_eq_true, Bool.not_eq_true'] at hagain
  rw [hagain.1.1.2] at himported
  exact absurd himported (by simp)

/-- A page that uses a project class in another letter case and a class it imports
itself, before and after rendering. -/
theorem resolveFile_render_page :
    let helper : SourceFile :=
      { path := ⟨[], ["Lib".toList, "Helper.php".toList]⟩, typeName := "Helper".toList,
        contents := [], namespaceName := some "Acme\\Lib".toList }
    let page : SourceFile :=
      { path := ⟨[], ["Home.phtml".toList]⟩, typeName := "Home".toList,
        contents := "<? helper::run();\nuse A\\Box;\n".toList }
    let candidates : List Candidate :=
      [.name "helper".toList, .group [.reference none, .reference (some "Box".toList)]]
    let text := "<?php\n\nuse Acme\\Lib\\Helper;\n helper::run();\nuse A\\Box;\n".toList
    let index := (SymbolIndex.build [helper]).1
    (withImports page candidates index).render = some text ∧
      (withImports page candidates index).imports = ["Acme\\Lib\\Helper".toList] ∧
        resolveFile { withImports page candidates index with contents := text } candidates index =
          [] := by
  intro helper page candidates text index
  have hrender : (withImports page candidates index).render = some text := by decide
  exact ⟨hrender, by decide, resolveFile_render (by unfold HasPlainNames; decide)
    (by decide) hrender⟩

end Namespacer
