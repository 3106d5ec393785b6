import Namespacer.Grammar.Lexer
import Namespacer.Proofs.AsciiCase
import Namespacer.Proofs.Rewriting
import Namespacer.Renaming
import Mathlib.Data.List.TakeWhile

/-!
# No form of a renamed type is left

The rules of a rename look for a name in two forms: behind a keyword, as in
`new user_model`, and in front of a double colon, as in `user_model::`.

* `RenameForm.Holds`: the two forms as relations between a part of a text and
  what stands around it.
* `RenameForm.Occurs`: a form occurs where it does not begin inside of a longer
  identifier.
* `not_occurs_of_rewritten`: rewriting one form leaves no place of that form and
  makes none of another.
* `exists_applyAll`: after the rules of a rename none of their forms occurs.

A place of a form begins with a whole word, a keyword or the name, and the
images consist of a keyword and the new name, or of the new name and a double
colon. So a place of a form that touches an image would have to agree with it
word by word. The new name may hold combining marks, which belong to no word;
what comes behind a mark is inside of an identifier.
-/

namespace Namespacer

open Text

/-! ## Words -/

/-- Whether a text is a word: not empty, and word characters only. -/
def IsWordText (word : Text) : Prop := word ≠ [] ∧ ∀ c ∈ word, isWord c = true

/-- Whether no word goes on behind a character. -/
def outsideWord (before : Option Char) : Prop := before.any isWord = false

/-- Whether no word goes on at the front of a text. -/
def endsWord (text : Text) : Prop := text.head?.any isWord = false

theorem endsWord_cons {c : Char} {text : Text} : endsWord (c :: text) ↔ isWord c = false := by
  simp [endsWord]

theorem isWord_eq_false_of_isBlank {c : Char} (h : isBlank c = true) : isWord c = false := by
  have hascii : ∀ n < 128, isBlank (Char.ofNat n) = true → isWord (Char.ofNat n) = false := by
    decide
  by_cases hc : c.toNat < 128
  · exact forall_ascii (P := fun c => isBlank c = true → isWord c = false) hascii hc h
  · -- The blanks beyond ASCII lie in four gaps between the letters and digits.
    have hgaps : ∀ gap ∈ [(0x80, 0xA0), (0x1680, 0x1680), (0x2000, 0x205F), (0x3000, 0x3000)],
        betweenRanges gap.1 gap.2 = true := by
      decide +kernel
    have hgap : ∃ gap ∈ [(0x80, 0xA0), (0x1680, 0x1680), (0x2000, 0x205F), (0x3000, 0x3000)],
        gap.1 ≤ c.toNat ∧ c.toNat ≤ gap.2 := by
      simp only [isBlank, hc, if_false, Bool.or_eq_true, Bool.and_eq_true, beq_iff_eq,
        decide_eq_true_eq] at h
      simp only [List.mem_cons, List.not_mem_nil, or_false, exists_eq_or_imp, exists_eq_left]
      omega
    obtain ⟨gap, hmem, hlow, hhigh⟩ := hgap
    have hletter := isAlphanumeric_of_betweenRanges (hgaps gap hmem) hc hlow hhigh
    have hunderscore : c ≠ '_' := by
      rintro rfl
      exact hc (by decide)
    simp [isWord, hletter, hunderscore]

/-! ### Runs of a class of characters -/

theorem takeWhile_append_of_head? {p : Char → Bool} {run rest : Text}
    (hrun : ∀ c ∈ run, p c = true) (hrest : rest.head?.any p = false) :
    (run ++ rest).takeWhile p = run := by
  rw [List.takeWhile_append_of_pos hrun]
  cases rest with
  | nil => simp
  | cons c rest =>
    have hc : p c = false := hrest
    simp [hc]

/-- Two runs that begin the same text and end there are the same. -/
theorem run_append_inj {p : Char → Bool} {run run' rest rest' : Text}
    (hrun : ∀ c ∈ run, p c = true) (hrun' : ∀ c ∈ run', p c = true)
    (hrest : rest.head?.any p = false) (hrest' : rest'.head?.any p = false)
    (h : run ++ rest = run' ++ rest') : run = run' ∧ rest = rest' := by
  have heq : run = run' := by
    rw [← takeWhile_append_of_head? hrun hrest, h, takeWhile_append_of_head? hrun' hrest']
  subst heq
  exact ⟨rfl, List.append_cancel_left h⟩

/-- Every text begins with a run, possibly an empty one. -/
theorem exists_run (p : Char → Bool) (text : Text) : ∃ run rest, text = run ++ rest ∧
    (∀ c ∈ run, p c = true) ∧ rest.head?.any p = false := by
  refine ⟨text.takeWhile p, text.dropWhile p, List.takeWhile_append_dropWhile.symm,
    fun c hc => List.mem_takeWhile_imp hc, ?_⟩
  have hhead := List.head?_dropWhile_not p text
  cases hrest : (text.dropWhile p).head? with
  | none => rfl
  | some c =>
    rw [hrest] at hhead
    exact hhead

/-! ### Words in a text -/

theorem takeWhile_isWord {word rest : Text} (hword : ∀ c ∈ word, isWord c = true)
    (hrest : endsWord rest) : (word ++ rest).takeWhile isWord = word :=
  takeWhile_append_of_head? hword hrest

/-- Two words that begin the same text and end there are the same. -/
theorem word_append_inj {word word' rest rest' : Text} (hword : ∀ c ∈ word, isWord c = true)
    (hword' : ∀ c ∈ word', isWord c = true) (hrest : endsWord rest) (hrest' : endsWord rest')
    (h : word ++ rest = word' ++ rest') : word = word' ∧ rest = rest' :=
  run_append_inj hword hword' hrest hrest' h

theorem endsWord_append {text : Text} (h : text ≠ []) (rest : Text) :
    endsWord (text ++ rest) ↔ endsWord text := by
  obtain ⟨c, text, rfl⟩ := List.exists_cons_of_ne_nil h
  rw [List.cons_append, endsWord_cons, endsWord_cons]

theorem not_endsWord_append {word : Text} (h : IsWordText word) (rest : Text) :
    ¬ endsWord (word ++ rest) := by
  rw [endsWord_append h.1]
  obtain ⟨c, word, rfl⟩ := List.exists_cons_of_ne_nil h.1
  rw [endsWord_cons, h.2 c List.mem_cons_self]
  simp

/-- Where a word begins there is no blank. -/
theorem not_blank_of_not_endsWord {text : Text} (h : ¬ endsWord text) :
    text.head?.any isBlank = false := by
  rw [Option.any_eq_false]
  intro c hc
  rw [← Bool.not_eq_true]
  intro hblank
  refine h ?_
  rw [endsWord, hc]
  exact isWord_eq_false_of_isBlank hblank

theorem not_blank_append {word : Text} (h : IsWordText word) (rest : Text) :
    (word ++ rest).head?.any isBlank = false :=
  not_blank_of_not_endsWord (not_endsWord_append h rest)

/-- Behind a beginning of a word the word goes on. -/
theorem not_outsideWord_behind {before : Option Char} {s : Text} (hne : s ≠ [])
    (hs : ∀ c ∈ s, isWord c = true) : ¬ outsideWord (behind before s) := by
  obtain ⟨u, c, rfl⟩ := List.eq_nil_or_concat s |>.resolve_left hne
  rw [List.concat_eq_append, behind_append]
  simpa [outsideWord] using hs c (by simp)

/-- A place between words that lies in a text with a word in front is the start
of the text or lies behind the word. -/
theorem outsideWord_cases {before : Option Char} {word rest s v : Text}
    (hword : ∀ c ∈ word, isWord c = true) (hs : outsideWord (behind before s))
    (h : s ++ v = word ++ rest) : s = [] ∨ ∃ s', s = word ++ s' ∧ rest = s' ++ v := by
  rcases List.append_eq_append_iff.mp h with ⟨w, rfl, rfl⟩ | ⟨w, rfl, rfl⟩
  · by_cases hne : s = []
    · exact .inl hne
    · exact absurd hs (not_outsideWord_behind hne fun c hc => hword c (by simp [hc]))
  · exact .inr ⟨w, rfl, rfl⟩

/-- Where a text begins with characters of no word, a word begins behind them. -/
theorem exists_eq_append_of_blank {gap rest s v : Text} (hgap : ∀ c ∈ gap, isWord c = false)
    (hv : ¬ endsWord v) (h : s ++ v = gap ++ rest) : ∃ s', s = gap ++ s' ∧ rest = s' ++ v := by
  rcases List.append_eq_append_iff.mp h with ⟨w, rfl, rfl⟩ | ⟨w, rfl, rfl⟩
  · cases w with
    | nil => exact ⟨[], by simp, by simp⟩
    | cons c w => exact absurd (endsWord_cons.mpr (hgap c (by simp))) hv
  · exact ⟨w, rfl, rfl⟩

/-- Blanks belong to no word. -/
theorem not_word_of_blank {gap : Text} (hgap : ∀ c ∈ gap, isBlank c = true) :
    ∀ c ∈ gap, isWord c = false := fun c hc => isWord_eq_false_of_isBlank (hgap c hc)

/-- A double colon and the blanks around it belong to no word. -/
theorem not_word_of_scope {gap trail : Text} (hgap : ∀ c ∈ gap, isBlank c = true)
    (htrail : ∀ c ∈ trail, isBlank c = true) :
    ∀ c ∈ gap ++ ':' :: ':' :: trail, isWord c = false := by
  have hcolon : isWord ':' = false := by decide
  rw [List.forall_mem_append, List.forall_mem_cons, List.forall_mem_cons]
  exact ⟨not_word_of_blank hgap, hcolon, hcolon, not_word_of_blank htrail⟩

theorem endsWord_append_of_blank {gap : Text} (hne : gap ≠ [])
    (hgap : ∀ c ∈ gap, isBlank c = true) (rest : Text) : endsWord (gap ++ rest) := by
  obtain ⟨c, gap, rfl⟩ := List.exists_cons_of_ne_nil hne
  exact endsWord_cons.mpr (not_word_of_blank hgap c List.mem_cons_self)

/-- No word goes on where blanks and a colon follow. -/
theorem endsWord_gap {gap : Text} (hgap : ∀ c ∈ gap, isBlank c = true) (rest : Text) :
    endsWord (gap ++ ':' :: rest) := by
  cases gap with
  | nil => exact endsWord_cons.mpr (by decide)
  | cons c gap => exact endsWord_append_of_blank (by simp) hgap _

theorem endsWord_scope {gap : Text} (hgap : ∀ c ∈ gap, isBlank c = true) (trail rest : Text) :
    endsWord (gap ++ ':' :: ':' :: trail ++ rest) := by
  rw [List.append_assoc]
  exact endsWord_gap hgap _

/-! ## Identifiers -/

/-- Whether a character before a word makes the word a part of a longer identifier. -/
def continues (c : Char) : Bool := Grammar.isNameChar c && !isBlank c

/-- Whether no identifier goes on behind a character. -/
def standsAlone (before : Option Char) : Prop := before.any continues = false

theorem continues_of_isWord {c : Char} (h : isWord c = true) : continues c = true := by
  have hname : Grammar.isNameChar c = true := by
    by_cases hc : c.toNat < 128
    · exact forall_ascii (P := fun c => isWord c = true → Grammar.isNameChar c = true)
        (by decide) hc h
    · have hsign : c ∉ Grammar.spaceSigns := by
        intro hmem
        have hnone : Grammar.spaceSigns.any isWord = false := by decide +kernel
        exact List.any_eq_false.mp hnone c hmem h
      simp [Grammar.isNameChar, Grammar.isNameStart, Nat.le_of_not_lt hc, hsign]
  have hblank : isBlank c = false := by
    rw [← Bool.not_eq_true]
    intro hblank
    exact Bool.false_ne_true ((isWord_eq_false_of_isBlank hblank).symm.trans h)
  simp [continues, hname, hblank]

theorem outsideWord_of_standsAlone {before : Option Char} (h : standsAlone before) :
    outsideWord before := by
  cases before with
  | none => rfl
  | some c =>
    rw [outsideWord, Option.any_some, ← Bool.not_eq_true]
    intro hword
    exact Bool.false_ne_true (h.symm.trans (continues_of_isWord hword))

/-- Behind a beginning of an identifier the identifier goes on. -/
theorem not_standsAlone_behind {before : Option Char} {s : Text} (hne : s ≠ [])
    (hs : ∀ c ∈ s, continues c = true) : ¬ standsAlone (behind before s) := by
  obtain ⟨u, c, rfl⟩ := List.eq_nil_or_concat s |>.resolve_left hne
  rw [List.concat_eq_append, behind_append]
  simpa [standsAlone] using hs c (by simp)

/-- A place outside of identifiers that lies in a text with an identifier in front is the
start of the text or lies behind the identifier. -/
theorem standsAlone_cases {before : Option Char} {name rest s v : Text}
    (hname : ∀ c ∈ name, continues c = true) (hs : standsAlone (behind before s))
    (h : s ++ v = name ++ rest) : s = [] ∨ ∃ s', s = name ++ s' ∧ rest = s' ++ v := by
  rcases List.append_eq_append_iff.mp h with ⟨w, rfl, rfl⟩ | ⟨w, rfl, rfl⟩
  · by_cases hne : s = []
    · exact .inl hne
    · exact absurd hs (not_standsAlone_behind hne fun c hc => hname c (by simp [hc]))
  · exact .inr ⟨w, rfl, rfl⟩

/-! ## Forms -/

/-- The words behind which the name of a type is looked for. -/
def typeKeywords : List Text := ["class", "extends", "implements", "new"]

theorem isWordText_of_mem_typeKeywords {word : Text} (h : word ∈ typeKeywords) :
    IsWordText word := by
  have hall : typeKeywords.all (fun word => !word.isEmpty && word.all isWord) = true := by
    decide
  have hword := List.all_eq_true.mp hall word h
  simpa [IsWordText] using hword

theorem isWordText_of_mem_cons {name word : Text} (hname : IsWordText name)
    (h : word ∈ name :: typeKeywords) : IsWordText word := by
  rcases List.mem_cons.mp h with rfl | h
  · exact hname
  · exact isWordText_of_mem_typeKeywords h

/-- Whether a name that follows a character is a part of what the character ends. -/
def isJoined (c : Char) : Bool := isWord c || c == '$' || c == '\\' || c == '>'

theorem isJoined_eq_false_of_isBlank {c : Char} (h : isBlank c = true) : isJoined c = false := by
  have hne (d : Char) (hd : isBlank d = false) : (c == d) = false := by
    rw [beq_eq_false_iff_ne]
    rintro rfl
    exact absurd (h.symm.trans hd) (by decide)
  rw [isJoined, isWord_eq_false_of_isBlank h, hne '$' rfl, hne '\\' rfl, hne '>' rfl]
  rfl

theorem outsideWord_of_not_joined {before : Option Char} (h : before.any isJoined = false) :
    outsideWord before := by
  cases before with
  | none => rfl
  | some c =>
    simp only [Option.any_some, isJoined, Bool.or_eq_false_iff] at h
    exact h.1.1.1

/-- Where the name of a type is looked for. -/
inductive RenameForm where
  /-- Behind one of some words and blanks. -/
  | behindWord (words : List Text)
  /-- In front of a double colon. -/
  | beforeScope

namespace RenameForm

/-- The words that a form takes. -/
def words : RenameForm → List Text
  | behindWord words => words
  | beforeScope => []

/-- Whether a form of a name covers a text between a character and a text. -/
def Holds (name : Text) : RenameForm → (before : Option Char) → (covered after : Text) → Prop
  | behindWord words, before, covered, after =>
    outsideWord before ∧ endsWord after ∧ ∃ word ∈ words, ∃ gap ≠ [],
      (∀ c ∈ gap, isBlank c = true) ∧ covered = word ++ (gap ++ name)
  | beforeScope, before, covered, _ =>
    before.any isJoined = false ∧ ∃ gap trail, (∀ c ∈ gap, isBlank c = true) ∧
      (∀ c ∈ trail, isBlank c = true) ∧ covered = name ++ (gap ++ ':' :: ':' :: trail)

/-- What a form becomes under a new name. -/
def image (newName : Text) : RenameForm → (covered : Text) → Text
  | behindWord _, covered => covered.takeWhile isWord ++ ' ' :: newName
  | beforeScope, _ => newName ++ [':', ':']

/-- Whether all that can begin behind the second of two characters can begin behind the
first one. -/
def Similar (before before' : Option Char) : Prop :=
  standsAlone before' →
    standsAlone before ∧ (before'.any isJoined = false → before.any isJoined = false)

theorem Similar.refl (before : Option Char) : Similar before before := fun h => ⟨h, id⟩

/-- Whether a form of a name occurs in a text behind a character, not as a part of a longer
identifier. -/
def Occurs (name : Text) (form : RenameForm) (before : Option Char) (text : Text) : Prop :=
  ∃ skipped covered after, text = skipped ++ (covered ++ after) ∧
    standsAlone (behind before skipped) ∧ form.Holds name (behind before skipped) covered after

variable {form : RenameForm} {name : Text} {before : Option Char} {covered after : Text}

theorem Occurs.of_append {u text : Text} (h : form.Occurs name (behind before u) text) :
    form.Occurs name before (u ++ text) := by
  obtain ⟨skipped, covered, after, rfl, halone, hholds⟩ := h
  exact ⟨u ++ skipped, covered, after, by simp, by rwa [behind_append], by rwa [behind_append]⟩

/-- A form sees of what is around it whether a word or a name goes on there. -/
theorem Holds.similar {before' : Option Char} {after' : Text}
    (h : form.Holds name before' covered after) (hbefore : Similar before before')
    (halone : standsAlone before') (hafter : endsWord after → endsWord after') :
    form.Holds name before covered after' := by
  obtain ⟨halone', hjoined⟩ := hbefore halone
  cases form with
  | behindWord words =>
    obtain ⟨-, hends, hcovered⟩ := h
    exact ⟨outsideWord_of_standsAlone halone', hafter hends, hcovered⟩
  | beforeScope => exact ⟨hjoined h.1, h.2⟩

/-- What a form covers begins with a keyword or the name, as a whole word. -/
theorem Holds.begins (h : form.Holds name before covered after)
    (hform : form.words ⊆ typeKeywords) :
    outsideWord before ∧ ∃ word ∈ name :: typeKeywords, ∃ rest, covered = word ++ rest ∧
      rest ≠ [] ∧ endsWord rest := by
  cases form with
  | behindWord words =>
    obtain ⟨hbefore, -, word, hword, gap, hne, hgap, rfl⟩ := h
    exact ⟨hbefore, word, List.mem_cons_of_mem _ (hform hword), _, rfl, by simp [hne],
      endsWord_append_of_blank hne hgap name⟩
  | beforeScope =>
    obtain ⟨hbefore, gap, trail, hgap, -, rfl⟩ := h
    exact ⟨outsideWord_of_not_joined hbefore, name, List.mem_cons_self, _, rfl, by simp,
      endsWord_gap hgap _⟩

theorem Holds.image_behindWord {words : List Text} (newName : Text)
    (h : (behindWord words).Holds name before covered after) (hwords : words ⊆ typeKeywords) :
    ∃ word ∈ words, (behindWord words).image newName covered = word ++ ' ' :: newName ∧
      endsWord after := by
  obtain ⟨-, hafter, word, hword, gap, hne, hgap, rfl⟩ := h
  refine ⟨word, hword, ?_, hafter⟩
  rw [image, takeWhile_isWord (isWordText_of_mem_typeKeywords (hwords hword)).2
    (endsWord_append_of_blank hne hgap name)]

/-- The image of a form is a keyword and the new name, or the new name and a
double colon. -/
theorem Holds.image_cases (newName : Text) (h : form.Holds name before covered after)
    (hform : form.words ⊆ typeKeywords) :
    (∃ word ∈ typeKeywords, form.image newName covered = word ++ ' ' :: newName ∧
        endsWord after) ∨
      form.image newName covered = newName ++ [':', ':'] := by
  cases form with
  | behindWord words =>
    obtain ⟨word, hword, himage⟩ := h.image_behindWord newName hform
    exact .inl ⟨word, hform hword, himage⟩
  | beforeScope => exact .inr rfl

/-- Inside what a form covers, only the name can begin a word. -/
theorem Holds.split (hname : IsWordText name) {s v : Text} {start : Option Char}
    (h : form.Holds name before (s ++ v) after) (hform : form.words ⊆ typeKeywords) (hs : s ≠ [])
    (hstart : outsideWord (behind start s)) (hv : ¬ endsWord v) : v = name ∧ endsWord after := by
  cases form with
  | behindWord words =>
    obtain ⟨-, hafter, word, hword, gap, -, hgap, heq⟩ := h
    have hletters := (isWordText_of_mem_typeKeywords (hform hword)).2
    obtain ⟨s, rfl, hrest⟩ := (outsideWord_cases hletters hstart heq).resolve_left hs
    obtain ⟨s, rfl, rfl⟩ := exists_eq_append_of_blank (not_word_of_blank hgap) hv hrest.symm
    -- A part of the name before the word would still be inside a word.
    have hempty : s = [] := by
      by_contra hne
      rw [behind_append, behind_append] at hstart
      exact not_outsideWord_behind hne (fun c hc => hname.2 c (by simp [hc])) hstart
    exact ⟨by simp [hempty], hafter⟩
  | beforeScope =>
    obtain ⟨-, gap, trail, hgap, htrail, heq⟩ := h
    obtain ⟨s, rfl, hrest⟩ := (outsideWord_cases hname.2 hstart heq).resolve_left hs
    obtain ⟨t, -, hempty⟩ := exists_eq_append_of_blank (not_word_of_scope hgap htrail) hv
      (hrest.symm.trans (List.append_nil _).symm)
    obtain ⟨-, rfl⟩ := List.append_eq_nil_iff.mp hempty.symm
    exact absurd rfl hv

end RenameForm

/-! ## Rewriting one form -/

/-- What two names satisfy if the rules can tell one from the other. The new name begins
with a word, behind which there may be characters of an identifier that belong to no word. -/
structure RenamesWord (oldName newName : Text) : Prop where
  old : IsWordText oldName
  new : ∀ c ∈ newName, continues c = true
  begins : newName.takeWhile isWord ≠ []
  old_not_mem : oldName ∉ typeKeywords
  new_not_mem : newName.takeWhile isWord ∉ oldName :: typeKeywords

namespace RenamesWord

open RenameForm

variable {oldName newName : Text} (names : RenamesWord oldName newName)
include names

/-- The new name is a word of its own and a rest that goes on with no word. -/
theorem exists_new_eq : ∃ first rest, newName = first ++ rest ∧ IsWordText first ∧
    first ∉ oldName :: typeKeywords ∧ ∀ output, endsWord output → endsWord (rest ++ output) := by
  refine ⟨newName.takeWhile isWord, newName.dropWhile isWord,
    List.takeWhile_append_dropWhile.symm, ⟨names.begins, fun c hc => List.mem_takeWhile_imp hc⟩,
    names.new_not_mem, fun output houtput => ?_⟩
  cases hrest : newName.dropWhile isWord with
  | nil => exact houtput
  | cons c rest =>
    have hhead := List.head?_dropWhile_not isWord newName
    rw [hrest] at hhead
    exact endsWord_cons.mpr (by simpa using hhead)

theorem isWordText_of_mem_old {word : Text} (h : word ∈ oldName :: typeKeywords) :
    IsWordText word := isWordText_of_mem_cons names.old h

variable {form : RenameForm} (hform : form.words ⊆ typeKeywords)
include hform

/-- The image of a form begins with a keyword or the new name, as a whole word. -/
theorem image_begins {before : Option Char} {covered after : Text}
    (h : form.Holds oldName before covered after) :
    ∃ word rest, form.image newName covered = word ++ rest ∧ IsWordText word ∧ word ≠ oldName ∧
      rest ≠ [] ∧ endsWord rest := by
  rcases h.image_cases newName hform with ⟨word, hword, himage, -⟩ | himage
  · refine ⟨word, _, himage, isWordText_of_mem_typeKeywords hword, ?_, by simp,
      endsWord_cons.mpr (by decide)⟩
    rintro rfl
    exact names.old_not_mem hword
  · obtain ⟨first, rest, hnew, hfirst, hnot, hrest⟩ := names.exists_new_eq
    refine ⟨first, rest ++ [':', ':'], ?_, hfirst, ?_, by simp, ?_⟩
    · rw [himage, hnew, List.append_assoc]
    · rintro rfl
      exact hnot List.mem_cons_self
    · exact hrest _ (endsWord_cons.mpr (by decide))

theorem endsWord_iff {before : Option Char} {text output : Text}
    (h : Rewritten (form.Holds oldName) (form.image newName) before text output) :
    endsWord output ↔ endsWord text := by
  cases h with
  | finished => rfl
  | kept => rw [endsWord_cons, endsWord_cons]
  | replaced hfound =>
    obtain ⟨-, word, hword, rest, rfl, -⟩ := hfound.begins hform
    obtain ⟨word', rest', himage, hword', -⟩ := names.image_begins hform hfound
    rw [himage, List.append_assoc, List.append_assoc]
    exact iff_of_false (not_endsWord_append hword' _)
      (not_endsWord_append (names.isWordText_of_mem_old hword) _)

/-- Nothing that was kept is covered by a form that did not hold there before. -/
theorem not_holds_of_kept {other : RenameForm} (hother : other.words ⊆ typeKeywords)
    {before before' : Option Char} {c : Char} {text output covered after : Text}
    (hnone : ∀ covered after, c :: text = covered ++ after →
      ¬ form.Holds oldName before covered after)
    (hrest : Rewritten (form.Holds oldName) (form.image newName) (some c) text output)
    (hsimilar : Similar before before')
    (hocc : other.Occurs oldName before (c :: text) → other = form)
    (houtput : c :: output = covered ++ after) (halone : standsAlone before') :
    ¬ other.Holds oldName before' covered after := by
  intro h
  rcases (Rewritten.kept hnone hrest).kept_or_replaced houtput with
    ⟨text', htext, hrest'⟩ | ⟨s, v, found, after', output', rfl, hv, htext, himage, hfound⟩
  · have hbefore : other.Holds oldName before covered text' :=
      h.similar hsimilar halone (names.endsWord_iff hform hrest').mp
    have hsame := hocc ⟨[], covered, text', htext, (hsimilar halone).1, hbefore⟩
    subst hsame
    exact hnone covered text' htext hbefore
  · -- An image begins inside the covered text, so where the name begins.
    have hs : s ≠ [] := by
      rintro rfl
      exact hnone found after' htext hfound
    obtain ⟨word, rest, heq, hword, hne, hlong, hends⟩ := names.image_begins hform hfound
    rw [heq, List.append_assoc] at himage
    have hbegins : ¬ endsWord v := by
      rw [← endsWord_append hv after, himage]
      exact not_endsWord_append hword _
    obtain ⟨rfl, hafter⟩ := h.split names.old hother hs (hfound.begins hform).1 hbegins
    have hends' : endsWord (rest ++ output') := (endsWord_append hlong _).mpr hends
    exact hne (word_append_inj names.old.2 hword.2 hafter hends' himage).1.symm

omit hform in
/-- A form does not begin at the keyword of an image: the name behind it is the
new one. -/
theorem not_holds_keyword {other : RenameForm} (hother : other.words ⊆ typeKeywords)
    {before : Option Char} {word output covered after : Text} (hword : word ∈ typeKeywords)
    (houtput : endsWord output) (heq : word ++ ' ' :: (newName ++ output) = covered ++ after) :
    ¬ other.Holds oldName before covered after := by
  intro h
  have hletters := (isWordText_of_mem_typeKeywords hword).2
  have hspace : endsWord (' ' :: (newName ++ output)) := endsWord_cons.mpr (by decide)
  cases other with
  | behindWord words =>
    obtain ⟨-, hafter, word', hword', gap, hne, hgap, rfl⟩ := h
    obtain ⟨d, gap, rfl⟩ := List.exists_cons_of_ne_nil hne
    simp only [List.mem_cons, forall_eq_or_imp] at hgap
    have hgapEnds : endsWord (d :: (gap ++ (oldName ++ after))) :=
      endsWord_cons.mpr (isWord_eq_false_of_isBlank hgap.1)
    obtain ⟨-, hrest⟩ := word_append_inj hletters
      (isWordText_of_mem_typeKeywords (hother hword')).2 hspace hgapEnds (by simpa using heq)
    rw [List.cons.injEq] at hrest
    obtain ⟨first, tail, hnew, hfirst, hnot, htail⟩ := names.exists_new_eq
    rw [hnew, List.append_assoc] at hrest
    -- No blank is left for the gap, as the new name follows the first one.
    obtain ⟨s, hs, hnames⟩ := exists_eq_append_of_blank (s := [])
      (not_word_of_blank hgap.2)
      (not_endsWord_append hfirst (tail ++ output)) hrest.2
    obtain ⟨-, rfl⟩ := List.append_eq_nil_iff.mp hs.symm
    obtain ⟨heqName, -⟩ := word_append_inj names.old.2 hfirst.2 hafter (htail _ houtput) hnames
    exact hnot (heqName ▸ List.mem_cons_self)
  | beforeScope =>
    obtain ⟨-, gap, trail, hgap, -, rfl⟩ := h
    obtain ⟨rfl, -⟩ := word_append_inj hletters names.old.2 hspace
      (endsWord_gap hgap (':' :: (trail ++ after))) (by simpa using heq)
    exact names.old_not_mem hword

omit hform in
/-- A form does not begin at the new name. -/
theorem not_holds_newName {other : RenameForm} (hother : other.words ⊆ typeKeywords)
    {before : Option Char} {output covered after : Text} (houtput : endsWord output)
    (heq : newName ++ output = covered ++ after) : ¬ other.Holds oldName before covered after := by
  intro h
  obtain ⟨-, word, hword, rest, rfl, hlong, hends⟩ := h.begins hother
  rw [List.append_assoc] at heq
  have hends' : endsWord (rest ++ after) := (endsWord_append hlong _).mpr hends
  obtain ⟨first, tail, hnew, hfirst, hnot, htail⟩ := names.exists_new_eq
  rw [hnew, List.append_assoc] at heq
  obtain ⟨rfl, -⟩ := word_append_inj hfirst.2 (names.isWordText_of_mem_old hword).2
    (htail _ houtput) hends' heq
  exact hnot hword

/-- No form begins inside an image. -/
theorem not_holds_of_replaced {other : RenameForm} (hother : other.words ⊆ typeKeywords)
    {before before' : Option Char} {found after output s w covered after' : Text}
    (hfound : form.Holds oldName before found after) (houtput : endsWord output ↔ endsWord after)
    (himage : form.image newName found = s ++ w) (hw : w ≠ [])
    (heq : w ++ output = covered ++ after')
    (halone : standsAlone (behind before' s)) :
    ¬ other.Holds oldName (behind before' s) covered after' := by
  intro h
  obtain ⟨-, word, hword, rest, hcovered, -⟩ := h.begins hother
  have hbegins : ¬ endsWord w := by
    rw [← endsWord_append hw output, heq, hcovered, List.append_assoc]
    exact not_endsWord_append (names.isWordText_of_mem_old hword) _
  rcases hfound.image_cases newName hform with ⟨word, hword, hcase, hafter⟩ | hcase
  · have hletters := (isWordText_of_mem_typeKeywords hword).2
    rcases standsAlone_cases (fun c hc => continues_of_isWord (hletters c hc)) halone
      (himage.symm.trans hcase) with rfl | ⟨t, rfl, ht⟩
    · rw [List.nil_append] at himage
      rw [← himage, hcase, List.append_assoc] at heq
      exact names.not_holds_keyword hother hword (houtput.mpr hafter) heq h
    · obtain ⟨t, rfl, hnew⟩ := exists_eq_append_of_blank
        (List.forall_mem_singleton.mpr (show isWord ' ' = false by decide)) hbegins ht.symm
      have hempty : t = [] := by
        by_contra hne
        rw [behind_append, behind_append] at halone
        exact not_standsAlone_behind hne (fun c hc => names.new c (by simp [hnew, hc])) halone
      rw [hempty, List.nil_append] at hnew
      rw [← hnew] at heq
      exact names.not_holds_newName hother (houtput.mpr hafter) heq h
  · rcases standsAlone_cases names.new halone (himage.symm.trans hcase) with rfl | ⟨t, rfl, ht⟩
    · rw [List.nil_append] at himage
      rw [← himage, hcase, List.append_assoc] at heq
      exact names.not_holds_newName hother (endsWord_cons.mpr (by decide)) heq h
    · obtain ⟨t, -, hempty⟩ := exists_eq_append_of_blank
        (by simp [show isWord ':' = false by decide]) hbegins
        (ht.symm.trans (List.append_nil _).symm)
      exact hw (List.append_eq_nil_iff.mp hempty.symm).2

omit hform in
/-- Behind an image only that can begin which could begin behind what the image replaces. -/
theorem similar_image {before : Option Char} {covered after : Text}
    (h : form.Holds oldName before covered after) (before' : Option Char) :
    Similar (behind before covered) (behind before' (form.image newName covered)) := by
  intro halone
  cases form with
  | behindWord words =>
    have hne : newName ≠ [] := by
      rintro rfl
      exact names.begins rfl
    rw [image, behind_append, behind_cons] at halone
    exact absurd halone (not_standsAlone_behind hne names.new)
  | beforeScope =>
    obtain ⟨-, gap, trail, -, htrail, rfl⟩ := h
    have hlast : standsAlone (behind (some ':') trail) ∧
        (behind (some ':') trail).any isJoined = false := by
      rcases List.eq_nil_or_concat trail with rfl | ⟨u, c, rfl⟩
      · exact ⟨rfl, rfl⟩
      · have hblank := htrail c (by simp)
        rw [List.concat_eq_append, behind_append]
        exact ⟨by simp [standsAlone, continues, hblank], isJoined_eq_false_of_isBlank hblank⟩
    rw [behind_append, behind_append]
    exact ⟨hlast.1, fun _ => hlast.2⟩

/-- Rewriting a form leaves no place of that form, and makes none of another. -/
theorem not_occurs_of_rewritten {other : RenameForm} (hother : other.words ⊆ typeKeywords)
    {before before' : Option Char} {text output : Text}
    (h : Rewritten (form.Holds oldName) (form.image newName) before text output)
    (hsimilar : Similar before before') (hocc : other.Occurs oldName before text → other = form) :
    ¬ other.Occurs oldName before' output := by
  induction h generalizing before' with
  | finished =>
    rintro ⟨skipped, covered, after, htext, -, hholds⟩
    obtain ⟨-, word, -, rest, rfl, hlong, -⟩ := hholds.begins hother
    simp_all
  | @kept before c text output hnone hrest ih =>
    rintro ⟨skipped, covered, after, htext, halone, hholds⟩
    cases skipped with
    | nil =>
      rw [List.nil_append] at htext
      exact names.not_holds_of_kept hform hother hnone hrest hsimilar hocc htext halone hholds
    | cons d skipped =>
      rw [List.cons_append, List.cons.injEq] at htext
      obtain ⟨rfl, htext⟩ := htext
      exact ih (.refl _) (fun hrest => hocc (Occurs.of_append (u := [c]) hrest))
        ⟨skipped, covered, after, htext, halone, hholds⟩
  | @replaced before found after output hfound hrest ih =>
    rintro ⟨skipped, covered, after', htext, halone, hholds⟩
    have hbehind := ih (names.similar_image hfound before')
      (fun hrest => hocc (Occurs.of_append hrest))
    rcases List.append_eq_append_iff.mp htext with ⟨w, rfl, hw⟩ | ⟨w, himage, heq⟩
    · rw [behind_append] at halone hholds
      exact hbehind ⟨w, covered, after', hw, halone, hholds⟩
    · by_cases hempty : w = []
      · subst hempty
        rw [List.append_nil] at himage
        exact hbehind ⟨[], covered, after', heq.symm, himage ▸ halone, himage ▸ hholds⟩
      · exact names.not_holds_of_replaced hform hother hfound (names.endsWord_iff hform hrest)
          himage hempty heq.symm halone hholds

end RenamesWord

/-! ## The patterns of the forms -/

open Pattern

theorem atWordEdge_iff_outsideWord {before : Option Char} {text : Text} (h : ¬ endsWord text) :
    Place.atWordEdge ⟨before, text⟩ = true ↔ outsideWord before := by
  rw [endsWord, Bool.not_eq_false] at h
  simp [Place.atWordEdge, outsideWord, h]

theorem atWordEdge_iff_endsWord {before : Option Char} {text : Text} (h : ¬ outsideWord before) :
    Place.atWordEdge ⟨before, text⟩ = true ↔ endsWord text := by
  rw [outsideWord, Bool.not_eq_false] at h
  simp [Place.atWordEdge, endsWord, h]

theorem covers_behindWord {p : Pattern} {words : List Text} {name : Text} (hname : IsWordText name)
    (hwords : words ⊆ typeKeywords)
    (hp : ∀ before covered after, p.Covers before covered after ↔ covered ∈ words)
    (before : Option Char) (covered after : Text) :
    (all [wordEdge, p, oneOrMore isBlank, literal name, wordEdge]).Covers before covered after ↔
      (RenameForm.behindWord words).Holds name before covered after := by
  have hfront {word rest : Text} (hword : word ∈ words) : ¬ endsWord (word ++ rest) :=
    not_endsWord_append (isWordText_of_mem_typeKeywords (hwords hword)) rest
  have hback (b : Option Char) : ¬ outsideWord (behind b name) :=
    not_outsideWord_behind hname.1 hname.2
  simp only [covers_all_cons, hp, covers_oneOrMore, covers_literal]
  simp only [all, Covers, RenameForm.Holds]
  constructor
  · rintro ⟨_, _, rfl, ⟨rfl, hbefore⟩, word, _, rfl, hword, gap, _, rfl, ⟨hne, hgap⟩, _, _, rfl,
      rfl, _, _, rfl, ⟨rfl, hafter⟩, rfl⟩
    simp only [List.nil_append, List.append_nil, List.append_assoc] at hbefore hafter ⊢
    rw [atWordEdge_iff_outsideWord (hfront hword)] at hbefore
    rw [atWordEdge_iff_endsWord (hback _)] at hafter
    exact ⟨hbefore, hafter, word, hword, gap, hne, hgap, rfl⟩
  · rintro ⟨hbefore, hafter, word, hword, gap, hne, hgap, rfl⟩
    refine ⟨[], word ++ (gap ++ name), rfl, ⟨rfl, ?_⟩, word, gap ++ name, rfl, hword, gap, name,
      rfl, ⟨hne, hgap⟩, name, [], by simp, rfl, [], [], rfl, ⟨rfl, ?_⟩, rfl⟩
    · rw [List.append_assoc]
      exact (atWordEdge_iff_outsideWord (hfront hword)).mpr hbefore
    · exact (atWordEdge_iff_endsWord (hback _)).mpr hafter

theorem covers_beforeScope {name : Text} (before : Option Char) (covered after : Text) :
    (all [notAfter isJoined, literal name, many isBlank, literal "::", many isBlank]).Covers
      before covered after ↔ RenameForm.beforeScope.Holds name before covered after := by
  simp only [covers_all_cons, covers_literal]
  simp only [all, Covers, RenameForm.Holds]
  constructor
  · rintro ⟨_, _, rfl, ⟨rfl, hbefore⟩, _, _, rfl, rfl, gap, _, rfl, hgap, _, _, rfl, rfl, trail, _,
      rfl, htrail, rfl⟩
    exact ⟨hbefore, gap, trail, hgap, htrail, by simp⟩
  · rintro ⟨hbefore, gap, trail, hgap, htrail, rfl⟩
    exact ⟨[], _, rfl, ⟨rfl, hbefore⟩, name, _, rfl, rfl, gap, _, rfl, hgap, "::".toList, trail,
      rfl, rfl, trail, [], by simp, htrail, rfl⟩

/-! ## The rules -/

/-- A rule whose template has no reference to a part of the match. -/
theorem RenameRule.apply_plain {pattern : Pattern} {template : Text}
    (hplain : '\\' ∉ template) (text : Text) :
    RenameRule.apply ⟨pattern, false, template⟩ text =
      .ok (pattern.replaceAll (fun _ => template) text) := by
  have hparse : Template.parse 0 template = _ := Template.parseFrom_of_plain hplain
  have hexpand (covered : Text) := Template.expand_plain template
    (RenameRule.parts ⟨pattern, false, template⟩ covered)
  rw [RenameRule.apply, if_neg (by simp), hparse]
  simp only [bind, Except.bind, hexpand]
  rfl

/-- Whether a rule looks for one form of a name and writes another name there. -/
structure RenameRule.Rewrites (rule : RenameRule) (form : RenameForm) (oldName newName : Text) :
    Prop where
  words : form.words ⊆ typeKeywords
  covers : ∀ before covered after,
    rule.pattern.Covers before covered after ↔ form.Holds oldName before covered after
  apply : ∀ text, ∃ image, rule.apply text = .ok (rule.pattern.replaceAll image text) ∧
    ∀ before covered after, form.Holds oldName before covered after →
      image covered = form.image newName covered

/-- The forms of the rules of a rename, in the order of the rules. -/
def renameForms : List RenameForm :=
  [.behindWord ["class"], .behindWord ["extends", "implements"], .behindWord ["new"], .beforeScope]

namespace RenamesWord

variable {oldName newName : Text} (names : RenamesWord oldName newName)
include names

theorem backslash_not_mem : '\\' ∉ newName := by
  intro hmem
  exact absurd (names.new _ hmem) (by decide)

/-- The rules that keep the keyword of a match. -/
theorem rewrites_behindWord {p : Pattern} {words : List Text} (hwords : words ⊆ typeKeywords)
    (hp : ∀ before covered after, p.Covers before covered after ↔ covered ∈ words) :
    RenameRule.Rewrites
      ⟨all [wordEdge, p, oneOrMore isBlank, literal oldName, wordEdge], true, "\\1 " ++ newName⟩
      (.behindWord words) oldName newName where
  words := hwords
  covers := covers_behindWord names.old hwords hp
  apply text := by
    have hparse : Template.parse 1 ("\\1 " ++ newName) = _ :=
      Template.parse_firstPart names.backslash_not_mem
    refine ⟨_, by rw [RenameRule.apply, if_pos rfl, hparse]; rfl, fun _ covered _ _ => ?_⟩
    change covered.takeWhile isWord ++ ' ' :: Template.expand (newName.map fun c => .text [c]) _ = _
    rw [Template.expand_plain]
    rfl

theorem rewrites_new :
    RenameRule.Rewrites
      ⟨all [wordEdge, literal "new", oneOrMore isBlank, literal oldName, wordEdge], false,
        "new " ++ newName⟩ (.behindWord ["new"]) oldName newName where
  words := by decide
  covers := covers_behindWord names.old (by decide) (by simp [covers_literal])
  apply text := by
    have hplain : '\\' ∉ ("new " ++ newName : Text) := by
      simpa using names.backslash_not_mem
    refine ⟨_, RenameRule.apply_plain hplain text, ?_⟩
    intro before covered after h
    obtain ⟨word, hword, himage, -⟩ := h.image_behindWord newName (by decide)
    rw [himage, List.mem_singleton.mp hword]
    rfl

theorem rewrites_beforeScope :
    RenameRule.Rewrites
      ⟨all [notAfter isJoined, literal oldName, many isBlank, literal "::", many isBlank], false,
        newName ++ "::"⟩ .beforeScope oldName newName where
  words := by simp [RenameForm.words]
  covers := covers_beforeScope
  apply text := by
    have hplain : '\\' ∉ (newName ++ "::" : Text) := by
      simpa using names.backslash_not_mem
    exact ⟨_, RenameRule.apply_plain hplain text, fun _ _ _ _ => rfl⟩

theorem rewrites_renameRules :
    List.Forall₂ (fun rule form => RenameRule.Rewrites rule form oldName newName)
      (renameRules oldName newName) renameForms := by
  refine .cons ?_ (.cons ?_ (.cons ?_ (.cons ?_ .nil)))
  · exact names.rewrites_behindWord (by decide) (by simp [covers_literal])
  · exact names.rewrites_behindWord (by decide) (by simp [Covers, covers_literal])
  · exact names.rewrites_new
  · exact names.rewrites_beforeScope

/-- A rule that rewrites a form leaves no place of it, and makes none of another. -/
theorem exists_apply {rule : RenameRule} {form : RenameForm}
    (hrule : rule.Rewrites form oldName newName) (text : Text) :
    ∃ text', rule.apply text = .ok text' ∧ ∀ other : RenameForm, other.words ⊆ typeKeywords →
      (other.Occurs oldName none text → other = form) → ¬ other.Occurs oldName none text' := by
  obtain ⟨image, happly, himage⟩ := hrule.apply text
  have hne (before : Option Char) (covered after : Text)
      (h : form.Holds oldName before covered after) : covered ≠ [] := by
    obtain ⟨-, word, hword, rest, rfl, -⟩ := h.begins hrule.words
    simp [(names.isWordText_of_mem_old hword).1]
  have hrewritten := Rewritten.replaceFrom hrule.covers himage hne none text
  refine ⟨_, happly, fun other hother hocc => ?_⟩
  exact names.not_occurs_of_rewritten hrule.words hother hrewritten (.refl none) hocc

theorem exists_applyAll_of_rewrites {rules : List RenameRule} {forms : List RenameForm}
    (hrules : List.Forall₂ (fun rule form => RenameRule.Rewrites rule form oldName newName)
      rules forms)
    (text : Text) :
    ∃ text', RenameRule.applyAll rules text = .ok text' ∧ ∀ form : RenameForm,
      form.words ⊆ typeKeywords → (form.Occurs oldName none text → form ∈ forms) →
        ¬ form.Occurs oldName none text' := by
  induction hrules generalizing text with
  | nil => exact ⟨text, rfl, fun form _ hocc hform => by cases hocc hform⟩
  | @cons rule form rules forms hrule hrules ih =>
    obtain ⟨text₁, happly, hfirst⟩ := names.exists_apply hrule text
    obtain ⟨text₂, hrest, hforms⟩ := ih text₁
    refine ⟨text₂, by rw [RenameRule.applyAll, happly]; exact hrest, ?_⟩
    intro other hother hocc
    refine hforms other hother fun hocc₁ => ?_
    -- What still occurs after the first rule is not its form, and was there before.
    by_contra hmem
    refine hfirst other hother (fun htext => ?_) hocc₁
    exact (List.mem_cons.mp (hocc htext)).resolve_right hmem

/-- After the rules of a rename none of their forms occurs. -/
theorem exists_applyAll (text : Text) :
    ∃ text', RenameRule.applyAll (renameRules oldName newName) text = .ok text' ∧
      ∀ form ∈ renameForms, ¬ form.Occurs oldName none text' := by
  have hrules := names.rewrites_renameRules
  obtain ⟨text', happly, hforms⟩ := names.exists_applyAll_of_rewrites hrules text
  refine ⟨text', happly, fun form hform => hforms form ?_ fun _ => hform⟩
  have hwords : ∀ form ∈ renameForms, form.words ⊆ typeKeywords := by decide
  exact hwords form hform

end RenamesWord

end Namespacer
