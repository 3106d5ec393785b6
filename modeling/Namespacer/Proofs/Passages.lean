import Namespacer.Proofs.RenamedForms

/-!
# The passages of a text

The rules of a rename look at a text one after another, each for a form of its own. Here a text
is cut once and for all, whatever name is looked for: into names behind a keyword, names in
front of a double colon, other words, and single characters between them. `Passage.Cut` says that
a list of passages is such a cut. A name behind a keyword belongs to the keyword, also if a double
colon follows.

* `Passage.exists_cut`: every text can be cut.
* `Passage.renamed`: a passage with another name. The blanks around the name change with it.
* `Passage.Cut.map_renamed`: passages with other names are a cut of the changed text. So what one
  name is changed to makes no place of another name, and unmakes none.
-/

namespace Namespacer

open Text

/-- Whether a text is a word, but none of the keywords that the rules of a rename know. -/
structure IsTypeName (name : Text) : Prop where
  word : IsWordText name
  other : name ∉ typeKeywords

/-- Whether a text begins with blanks and a name. -/
def StartsName (text : Text) : Prop :=
  ∃ gap name rest, gap ≠ [] ∧ (∀ c ∈ gap, isBlank c = true) ∧ IsTypeName name ∧ endsWord rest ∧
    text = gap ++ (name ++ rest)

/-- Whether a text begins with a double colon, possibly behind blanks. -/
def StartsScope (text : Text) : Prop :=
  ∃ gap rest, (∀ c ∈ gap, isBlank c = true) ∧ text = gap ++ ':' :: ':' :: rest

/-- A part of a text, as the rules of a rename see it. -/
inductive Passage where
  /-- A name behind a keyword and blanks. -/
  | behindKeyword (keyword gap name : Text)
  /-- A name in front of a double colon, with the blanks around the colons. -/
  | beforeScope (name gap trail : Text)
  /-- Any other word. -/
  | word (letters : Text)
  /-- A character that belongs to no word. -/
  | sign (c : Char)
deriving DecidableEq, Repr

namespace Passage

/-- The text of a passage. -/
def text : Passage → Text
  | behindKeyword keyword gap name => keyword ++ (gap ++ name)
  | beforeScope name gap trail => name ++ (gap ++ ':' :: ':' :: trail)
  | word letters => letters
  | sign c => [c]

/-- The text of some passages. -/
def textAll (passages : List Passage) : Text := passages.flatMap text

@[simp] theorem textAll_nil : textAll [] = [] := rfl

@[simp] theorem textAll_cons (passage : Passage) (passages : List Passage) :
    textAll (passage :: passages) = passage.text ++ textAll passages := rfl

theorem textAll_signs (signs : Text) (passages : List Passage) :
    textAll (signs.map .sign ++ passages) = signs ++ textAll passages := by
  induction signs with
  | nil => rfl
  | cons c signs ih => exact congrArg (c :: ·) ih

/-- Whether a passage is what stands between a character and a text. -/
inductive Fits : (before : Option Char) → Passage → (after : Text) → Prop
  | behindKeyword {before : Option Char} {keyword gap name after : Text}
      (hbefore : outsideWord before) (hafter : endsWord after) (hkeyword : keyword ∈ typeKeywords)
      (hne : gap ≠ []) (hgap : ∀ c ∈ gap, isBlank c = true) (hname : IsTypeName name) :
      Fits before (.behindKeyword keyword gap name) after
  | beforeScope {before : Option Char} {name gap trail after : Text}
      (hbefore : before.any isJoined = false) (hname : IsTypeName name)
      (hgap : ∀ c ∈ gap, isBlank c = true) (htrail : ∀ c ∈ trail, isBlank c = true)
      (hafter : after.head?.any isBlank = false) : Fits before (.beforeScope name gap trail) after
  | word {before : Option Char} {letters after : Text}
      (hbefore : outsideWord before) (hafter : endsWord after) (hword : IsWordText letters)
      (hkeyword : letters ∈ typeKeywords → ¬ StartsName after)
      (hscope : letters ∉ typeKeywords → before.any isJoined = false → ¬ StartsScope after) :
      Fits before (.word letters) after
  | sign {before : Option Char} {c : Char} {after : Text} (hc : isWord c = false) :
      Fits before (.sign c) after

/-- Whether passages are what a text behind a character is cut into. -/
inductive Cut : (before : Option Char) → List Passage → Prop
  | nil {before : Option Char} : Cut before []
  | cons {before : Option Char} {passage : Passage} {passages : List Passage}
      (hfits : passage.Fits before (textAll passages))
      (hrest : Cut (behind before passage.text) passages) : Cut before (passage :: passages)

/-! ## Cutting a text -/

/-- Behind blanks a name may begin. -/
theorem not_joined_behind_blank (before : Option Char) {gap : Text} (hne : gap ≠ [])
    (hgap : ∀ c ∈ gap, isBlank c = true) : (behind before gap).any isJoined = false := by
  obtain ⟨u, c, rfl⟩ := List.eq_nil_or_concat gap |>.resolve_left hne
  rw [List.concat_eq_append, behind_append]
  exact isJoined_eq_false_of_isBlank (hgap c (by simp))

/-- Behind a double colon and blanks a name may begin. -/
theorem not_joined_behind_scope (before : Option Char) (text : Text) {trail : Text}
    (htrail : ∀ c ∈ trail, isBlank c = true) :
    (behind before (text ++ ':' :: ':' :: trail)).any isJoined = false := by
  rw [behind_append, behind_cons, behind_cons]
  by_cases hne : trail = []
  · rw [hne]
    rfl
  · exact not_joined_behind_blank (some ':') hne htrail

/-- A text that does not begin inside of a word begins with a passage. -/
theorem exists_fits {before : Option Char} {text : Text} (hne : text ≠ [])
    (h : outsideWord before ∨ endsWord text) :
    ∃ (passage : Passage) (after : Text), text = passage.text ++ after ∧ passage.text ≠ [] ∧
      passage.Fits before after ∧
        (outsideWord (behind before passage.text) ∨ endsWord after) := by
  by_cases hfront : endsWord text
  · obtain ⟨c, after, rfl⟩ := List.exists_cons_of_ne_nil hne
    have hc := endsWord_cons.mp hfront
    exact ⟨.sign c, after, rfl, by simp [Passage.text], .sign hc,
      .inl (by simpa [Passage.text, outsideWord] using hc)⟩
  have hbefore := h.resolve_right hfront
  obtain ⟨w, rest, rfl, hletters, hends⟩ := exists_run isWord text
  have hword : IsWordText w := by
    refine ⟨?_, hletters⟩
    rintro rfl
    exact hfront hends
  by_cases hkeyword : w ∈ typeKeywords
  · by_cases hname : StartsName rest
    · obtain ⟨gap, name, after, hgapNe, hgap, hname, hafter, rfl⟩ := hname
      exact ⟨.behindKeyword w gap name, after, by simp [Passage.text],
        by simp [Passage.text, hword.1],
        .behindKeyword hbefore hafter hkeyword hgapNe hgap hname, .inr hafter⟩
    · exact ⟨.word w, rest, rfl, hword.1,
        .word hbefore hends hword (fun _ => hname) (fun hother => absurd hkeyword hother),
        .inr hends⟩
  · by_cases hscope : before.any isJoined = false ∧ StartsScope rest
    · obtain ⟨hjoined, gap, behindColons, hgap, rfl⟩ := hscope
      obtain ⟨trail, after, rfl, htrail, hafter⟩ := exists_run isBlank behindColons
      refine ⟨.beforeScope w gap trail, after, by simp [Passage.text],
        by simp [Passage.text, hword.1], .beforeScope hjoined ⟨hword, hkeyword⟩ hgap htrail hafter,
        .inl ?_⟩
      rw [Passage.text, ← List.append_assoc]
      exact outsideWord_of_not_joined (not_joined_behind_scope before _ htrail)
    · refine ⟨.word w, rest, rfl, hword.1, .word hbefore hends hword ?_ ?_, .inr hends⟩
      · exact fun hmem => absurd hmem hkeyword
      · exact fun _ hjoined hstarts => hscope ⟨hjoined, hstarts⟩

/-- Every text can be cut, if it does not begin inside of a word. -/
theorem exists_cut (before : Option Char) (text : Text) (h : outsideWord before ∨ endsWord text) :
    ∃ passages, Cut before passages ∧ textAll passages = text := by
  induction hlength : text.length using Nat.strongRecOn generalizing before text with
  | _ length ih =>
    by_cases hne : text = []
    · exact ⟨[], .nil, hne.symm⟩
    obtain ⟨passage, after, rfl, hpassage, hfits, hafter⟩ := exists_fits hne h
    have hshort : after.length < length := by
      have := List.length_pos_of_ne_nil hpassage
      rw [← hlength, List.length_append]
      omega
    obtain ⟨passages, hcut, rfl⟩ := ih after.length hshort _ after hafter rfl
    exact ⟨passage :: passages, .cons hfits hcut, rfl⟩

/-! ## Other names -/

/-- A passage with the name that an image gives it, if it gives one. The image sees the keyword
before the name. -/
def renamed (image : Option Text → Text → Option Text) : Passage → Passage
  | behindKeyword keyword gap name =>
    match image (some keyword) name with
    | some other => behindKeyword keyword [' '] other
    | none => behindKeyword keyword gap name
  | beforeScope name gap trail =>
    match image none name with
    | some other => beforeScope other [] []
    | none => beforeScope name gap trail
  | word letters => word letters
  | sign c => sign c

/-- Whether an image gives names that are words, and no keywords. -/
def IsRenaming (image : Option Text → Text → Option Text) : Prop :=
  ∀ keyword name other, image keyword name = some other → IsTypeName other

/-- Whether the same can begin behind two characters. -/
def Alike (before before' : Option Char) : Prop :=
  before.any isWord = before'.any isWord ∧ before.any isJoined = before'.any isJoined

theorem Alike.refl (before : Option Char) : Alike before before := ⟨rfl, rfl⟩

theorem alike_behind_word {word word' : Text} (hword : IsWordText word) (hword' : IsWordText word')
    (before before' : Option Char) : Alike (behind before word) (behind before' word') := by
  have hlast {word : Text} (hword : IsWordText word) (before : Option Char) :
      (behind before word).any isWord = true ∧ (behind before word).any isJoined = true := by
    have hinside : ¬ outsideWord (behind before word) := not_outsideWord_behind hword.1 hword.2
    rw [outsideWord, Bool.not_eq_false] at hinside
    refine ⟨hinside, ?_⟩
    cases hend : behind before word with
    | none => simp [hend] at hinside
    | some c =>
      rw [hend, Option.any_some] at hinside
      simp [isJoined, hinside]
  obtain ⟨hend, hjoined⟩ := hlast hword before
  obtain ⟨hend', hjoined'⟩ := hlast hword' before'
  exact ⟨hend.trans hend'.symm, hjoined.trans hjoined'.symm⟩

theorem alike_of_not_joined {before before' : Option Char} (h : before.any isJoined = false)
    (h' : before'.any isJoined = false) : Alike before before' :=
  ⟨(outsideWord_of_not_joined h).trans (outsideWord_of_not_joined h').symm, h.trans h'.symm⟩

theorem renamed_none (passage : Passage) : passage.renamed (fun _ _ => none) = passage := by
  cases passage <;> rfl

theorem map_renamed_none (passages : List Passage) :
    passages.map (renamed fun _ _ => none) = passages := by
  rw [funext renamed_none, List.map_id']

theorem isRenaming_none : IsRenaming fun _ _ => none := fun _ _ _ h => by cases h

section Renamed

variable {image : Option Text → Text → Option Text} (himage : IsRenaming image)
  {before before' : Option Char} {passages : List Passage}
include himage

/-- A passage behind a keyword still is one with another name. -/
theorem exists_renamed_behindKeyword {keyword gap name : Text} (hne : gap ≠ [])
    (hgap : ∀ c ∈ gap, isBlank c = true) (hname : IsTypeName name) :
    ∃ gap' name',
      (behindKeyword keyword gap name).renamed image = behindKeyword keyword gap' name' ∧
        gap' ≠ [] ∧ (∀ c ∈ gap', isBlank c = true) ∧ IsTypeName name' := by
  rw [renamed]
  split
  · rename_i other hother
    have hspace : isBlank ' ' = true := by decide
    exact ⟨[' '], other, rfl, by simp, List.forall_mem_singleton.mpr hspace, himage _ _ _ hother⟩
  · exact ⟨gap, name, rfl, hne, hgap, hname⟩

/-- A passage in front of a double colon still is one with another name. -/
theorem exists_renamed_beforeScope {name gap trail : Text} (hname : IsTypeName name)
    (hgap : ∀ c ∈ gap, isBlank c = true) (htrail : ∀ c ∈ trail, isBlank c = true) :
    ∃ name' gap' trail',
      (beforeScope name gap trail).renamed image = beforeScope name' gap' trail' ∧
        IsTypeName name' ∧ (∀ c ∈ gap', isBlank c = true) ∧ ∀ c ∈ trail', isBlank c = true := by
  rw [renamed]
  split
  · rename_i other hother
    exact ⟨other, [], [], rfl, himage _ _ _ hother, by simp, by simp⟩
  · exact ⟨name, gap, trail, rfl, hname, hgap, htrail⟩

/-- A passage is a sign, or it begins with a word, whatever name it gets. -/
theorem Fits.begins {passage : Passage} {after : Text} (h : passage.Fits before after) :
    (∃ c, passage = .sign c) ∨ ∀ rest, ¬ endsWord ((passage.renamed image).text ++ rest) := by
  cases h with
  | sign => exact .inl ⟨_, rfl⟩
  | word _ _ hword => exact .inr fun rest => not_endsWord_append hword rest
  | behindKeyword _ _ hkeyword hne hgap hname =>
    refine .inr fun rest => ?_
    obtain ⟨gap', name', heq, -⟩ := exists_renamed_behindKeyword himage hne hgap hname
    rw [heq, text, List.append_assoc]
    exact not_endsWord_append (isWordText_of_mem_typeKeywords hkeyword) _
  | beforeScope _ hname hgap htrail =>
    refine .inr fun rest => ?_
    obtain ⟨name', gap', trail', heq, hname', -⟩ :=
      exists_renamed_beforeScope himage hname hgap htrail
    rw [heq, text, List.append_assoc]
    exact not_endsWord_append hname'.word _

/-- Other names begin with a word where names do. -/
theorem Cut.head_cases (h : Cut before passages) :
    (textAll (passages.map (renamed image))).head? = (textAll passages).head? ∨
      ¬ endsWord (textAll (passages.map (renamed image))) ∧ ¬ endsWord (textAll passages) := by
  cases h with
  | nil => exact .inl rfl
  | @cons _ passage passages hfits =>
    rcases hfits.begins himage with ⟨c, rfl⟩ | hbegins
    · exact .inl rfl
    · rcases hfits.begins isRenaming_none with ⟨c, rfl⟩ | hbegins'
      · exact .inl rfl
      · refine .inr ⟨hbegins _, ?_⟩
        have hfront := hbegins' (textAll passages)
        rwa [renamed_none] at hfront

theorem Cut.endsWord_renamed (h : Cut before passages) :
    endsWord (textAll (passages.map (renamed image))) ↔ endsWord (textAll passages) := by
  rcases h.head_cases himage with hsame | ⟨hnot, hnot'⟩
  · rw [endsWord, endsWord, hsame]
  · exact iff_of_false hnot hnot'

theorem Cut.not_blank_renamed (h : Cut before passages)
    (hblank : (textAll passages).head?.any isBlank = false) :
    (textAll (passages.map (renamed image))).head?.any isBlank = false := by
  rcases h.head_cases himage with hsame | ⟨hnot, -⟩
  · rw [hsame]
    exact hblank
  · exact not_blank_of_not_endsWord hnot

/-- What stands before a word in the changed text are signs of the text. -/
theorem Cut.exists_signs (h : Cut before passages) {signs rest : Text}
    (hsigns : ∀ c ∈ signs, isWord c = false)
    (htext : textAll (passages.map (renamed image)) = signs ++ rest) :
    ∃ more, passages = signs.map .sign ++ more ∧ textAll (more.map (renamed image)) = rest ∧
      Cut (behind before signs) more := by
  induction signs generalizing before passages with
  | nil => exact ⟨passages, rfl, htext, h⟩
  | cons c signs ih =>
    rw [List.forall_mem_cons] at hsigns
    cases h with
    | nil => cases htext
    | @cons _ passage passages hfits hrest =>
      rw [List.map_cons, textAll_cons] at htext
      rcases hfits.begins himage with ⟨d, rfl⟩ | hbegins
      · obtain ⟨rfl, hbehind⟩ := List.cons.inj htext
        obtain ⟨more, rfl, hchanged, hcut⟩ := ih hrest hsigns.2 hbehind
        exact ⟨more, rfl, hchanged, hcut⟩
      · refine absurd ?_ (hbegins (textAll (passages.map (renamed image))))
        rw [htext]
        exact endsWord_cons.mpr hsigns.1

/-- Where the changed text begins with a name, the text does. -/
theorem Cut.exists_name (h : Cut before passages) {name rest : Text} (hname : IsTypeName name)
    (hends : endsWord rest) (htext : textAll (passages.map (renamed image)) = name ++ rest) :
    ∃ name' rest', IsTypeName name' ∧ endsWord rest' ∧ textAll passages = name' ++ rest' := by
  cases h with
  | nil => exact absurd (List.append_eq_nil_iff.mp htext.symm).1 hname.word.1
  | @cons _ passage passages hfits hrest =>
    rw [List.map_cons, textAll_cons] at htext
    cases hfits with
    | sign hc =>
      refine absurd ?_ (not_endsWord_append hname.word rest)
      rw [← htext]
      exact endsWord_cons.mpr hc
    | word _ hafter hword =>
      have hafter' := (hrest.endsWord_renamed himage).mpr hafter
      obtain ⟨rfl, -⟩ := word_append_inj hword.2 hname.word.2 hafter' hends htext
      exact ⟨_, _, hname, hafter, rfl⟩
    | beforeScope _ hplain hgap =>
      exact ⟨_, _, hplain, endsWord_scope hgap _ _, List.append_assoc _ _ _⟩
    | behindKeyword _ _ hkeyword hne hgap hplain =>
      obtain ⟨gap', name', heq, hne', hgap', -⟩ :=
        exists_renamed_behindKeyword himage hne hgap hplain
      rw [heq, text, List.append_assoc, List.append_assoc] at htext
      obtain ⟨rfl, -⟩ := word_append_inj (isWordText_of_mem_typeKeywords hkeyword).2 hname.word.2
        (endsWord_append_of_blank hne' hgap' _) hends htext
      exact absurd hkeyword hname.other

theorem Cut.startsName_of_renamed (h : Cut before passages)
    (hstarts : StartsName (textAll (passages.map (renamed image)))) :
    StartsName (textAll passages) := by
  obtain ⟨gap, name, rest, hne, hgap, hname, hends, htext⟩ := hstarts
  obtain ⟨more, rfl, hchanged, hcut⟩ := h.exists_signs himage (not_word_of_blank hgap) htext
  obtain ⟨name', rest', hname', hends', heq⟩ := hcut.exists_name himage hname hends hchanged
  exact ⟨gap, name', rest', hne, hgap, hname', hends', by rw [textAll_signs, heq]⟩

theorem Cut.startsScope_of_renamed (h : Cut before passages)
    (hstarts : StartsScope (textAll (passages.map (renamed image)))) :
    StartsScope (textAll passages) := by
  obtain ⟨gap, rest, hgap, htext⟩ := hstarts
  have hsplit : textAll (passages.map (renamed image)) = (gap ++ [':', ':']) ++ rest := by
    rw [htext]
    simp
  have hnone : ∀ c ∈ ([] : Text), isBlank c = true := by simp
  obtain ⟨more, rfl, -, -⟩ := h.exists_signs himage (not_word_of_scope hgap hnone) hsplit
  exact ⟨gap, textAll more, hgap, by rw [textAll_signs, List.append_assoc]; rfl⟩

/-- Behind a passage the same can begin, whatever name it gets. -/
theorem Fits.alike {passage : Passage} {after : Text} (h : passage.Fits before after) :
    Alike (behind before passage.text) (behind before' (passage.renamed image).text) := by
  cases h with
  | sign => exact .refl _
  | word _ _ hword => exact alike_behind_word hword hword before before'
  | behindKeyword _ _ _ hne hgap hname =>
    obtain ⟨gap', name', heq, -, -, hname'⟩ := exists_renamed_behindKeyword himage hne hgap hname
    rw [heq]
    simp only [text, behind_append]
    exact alike_behind_word hname.word hname'.word _ _
  | beforeScope _ hname hgap htrail =>
    obtain ⟨name', gap', trail', heq, -, -, htrail'⟩ :=
      exists_renamed_beforeScope himage hname hgap htrail
    rw [heq, text, text, ← List.append_assoc, ← List.append_assoc]
    exact alike_of_not_joined (not_joined_behind_scope before _ htrail)
      (not_joined_behind_scope before' _ htrail')

/-- Passages with other names are a cut, too. -/
theorem Cut.map_renamed (h : Cut before passages) (hbefore : Alike before before') :
    Cut before' (passages.map (renamed image)) := by
  induction h generalizing before' with
  | nil => exact .nil
  | @cons before passage passages hfits hrest ih =>
    rw [List.map_cons]
    refine .cons ?_ (ih (hfits.alike himage))
    cases hfits with
    | sign hc => exact .sign hc
    | word hstart hafter hword hkeyword hscope =>
      refine .word (hbefore.1.symm.trans hstart) ((hrest.endsWord_renamed himage).mpr hafter) hword
        ?_ ?_
      · exact fun hmem hname => hkeyword hmem (hrest.startsName_of_renamed himage hname)
      · intro hother hjoined hstarts
        exact hscope hother (hbefore.2.trans hjoined) (hrest.startsScope_of_renamed himage hstarts)
    | behindKeyword hstart hafter hkeyword hne hgap hname =>
      obtain ⟨gap', name', heq, hne', hgap', hname'⟩ :=
        exists_renamed_behindKeyword himage hne hgap hname
      rw [heq]
      exact .behindKeyword (hbefore.1.symm.trans hstart)
        ((hrest.endsWord_renamed himage).mpr hafter) hkeyword hne' hgap' hname'
    | beforeScope hstart hname hgap htrail hafter =>
      obtain ⟨name', gap', trail', heq, hname', hgap', htrail'⟩ :=
        exists_renamed_beforeScope himage hname hgap htrail
      rw [heq]
      exact .beforeScope (hbefore.2.symm.trans hstart) hname' hgap' htrail'
        (hrest.not_blank_renamed himage hafter)

end Renamed

/-- Giving names by two images one after another is giving them by one, if the second leaves
alone what the first gives. -/
theorem renamed_comp_renamed {first second : Option Text → Text → Option Text}
    (h : ∀ keyword name other, first keyword name = some other → second keyword other = none) :
    renamed second ∘ renamed first =
      renamed fun keyword name => first keyword name <|> second keyword name := by
  funext passage
  rw [Function.comp_apply]
  cases passage with
  | behindKeyword keyword gap name =>
    cases hfirst : first (some keyword) name with
    | none => simp [renamed, hfirst]
    | some other => simp [renamed, hfirst, h _ _ _ hfirst]
  | beforeScope name gap trail =>
    cases hfirst : first none name with
    | none => simp [renamed, hfirst]
    | some other => simp [renamed, hfirst, h _ _ _ hfirst]
  | word letters => rfl
  | sign c => rfl

end Passage

end Namespacer
