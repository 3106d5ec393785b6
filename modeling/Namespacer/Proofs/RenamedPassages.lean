import Namespacer.Proofs.Passages

/-!
# What the rules of a rename do together

The rules of a rename are read off the passages of a text. The first three look for a name behind
a keyword, the last one for a name in front of a double colon. It would also find one that stands
behind a keyword, but those have been changed by then.

* `RenameForm.Takes`: a form holds at a place and takes all the blanks that it can take.
* `RenameForm.eq_textAll_of_rewritten`: rewriting one form gives the new name to the passages at
  its places.
* `RenamesWord.applyAll_textAll`: all rules of a rename give the new name to every name behind a
  keyword or in front of a double colon, and change nothing else.
-/

namespace Namespacer

open Text Pattern

/-! ## Where a form holds -/

namespace RenameForm

/-- The characters of which a form takes as many as follow. -/
def trails : RenameForm → Char → Bool
  | behindWord _ => fun _ => false
  | beforeScope => isBlank

/-- Whether a form of a name covers a text between a character and a text, and takes all that it
can take. -/
def Takes (name : Text) (form : RenameForm) (before : Option Char) (covered after : Text) : Prop :=
  form.Holds name before covered after ∧ after.head?.any form.trails = false

/-- Whether a form looks for a name behind a keyword, or for one without a keyword. -/
def places : RenameForm → Option Text → Bool
  | behindWord words, some keyword => words.contains keyword
  | beforeScope, none => true
  | _, _ => false

/-- The new name for the old one, at the places of a form. -/
def nameFor (form : RenameForm) (oldName newName : Text) (keyword : Option Text) (name : Text) :
    Option Text :=
  if form.places keyword = true ∧ name = oldName then some newName else none

variable {form : RenameForm} {name : Text} {before : Option Char} {covered after : Text}

theorem places_none_of_places_some {word : Text} (h : form.places (some word) = true) :
    form.places none = false := by
  cases form with
  | behindWord words => rfl
  | beforeScope => cases h

theorem mem_typeKeywords_of_places (hform : form.words ⊆ typeKeywords) {word : Text}
    (h : form.places (some word) = true) : word ∈ typeKeywords := by
  cases form with
  | behindWord words => exact hform (List.contains_iff_mem.mp h)
  | beforeScope => cases h

/-- What a form covers where a text begins with a word: the word is a keyword and the name is
behind it, or the word is the name and a double colon is behind it. -/
theorem Holds.cases (hname : IsWordText name) (hform : form.words ⊆ typeKeywords)
    (h : form.Holds name before covered after) {word rest : Text} (hword : IsWordText word)
    (hrest : endsWord rest) (htext : word ++ rest = covered ++ after) :
    (form.places (some word) = true ∧ ∃ gap, gap ≠ [] ∧ (∀ c ∈ gap, isBlank c = true) ∧
        endsWord after ∧ covered = word ++ (gap ++ name) ∧ rest = gap ++ (name ++ after)) ∨
      form.places none = true ∧ word = name ∧ before.any isJoined = false ∧ ∃ gap trail,
        (∀ c ∈ gap, isBlank c = true) ∧ (∀ c ∈ trail, isBlank c = true) ∧
          covered = word ++ (gap ++ ':' :: ':' :: trail) ∧
            rest = gap ++ ':' :: ':' :: (trail ++ after) := by
  cases form with
  | behindWord words =>
    obtain ⟨-, hafter, keyword, hkeyword, gap, hne, hgap, rfl⟩ := h
    rw [List.append_assoc, List.append_assoc] at htext
    obtain ⟨rfl, rfl⟩ := word_append_inj hword.2
      (isWordText_of_mem_typeKeywords (hform hkeyword)).2 hrest
      (endsWord_append_of_blank hne hgap _) htext
    exact .inl ⟨List.contains_iff_mem.mpr hkeyword, gap, hne, hgap, hafter, rfl, rfl⟩
  | beforeScope =>
    obtain ⟨hjoined, gap, trail, hgap, htrail, rfl⟩ := h
    rw [List.append_assoc, List.append_assoc] at htext
    obtain ⟨rfl, rfl⟩ := word_append_inj hword.2 hname.2 hrest (endsWord_gap hgap _) htext
    exact .inr ⟨rfl, rfl, hjoined, gap, trail, hgap, htrail, rfl, rfl⟩

/-- A form takes one text at a place. -/
theorem Takes.unique (hname : IsWordText name) (hform : form.words ⊆ typeKeywords)
    {covered' after' : Text} (h : form.Takes name before covered after)
    (h' : form.Takes name before covered' after') (htext : covered ++ after = covered' ++ after') :
    covered = covered' ∧ after = after' := by
  have hcovered : covered = covered' := by
    obtain ⟨-, word, hmem, rest, rfl, hlong, hends⟩ := h.1.begins hform
    have hword := isWordText_of_mem_cons hname hmem
    have hrest : endsWord (rest ++ after) := (endsWord_append hlong after).mpr hends
    have hsplit := List.append_assoc word rest after
    rcases h.1.cases hname hform hword hrest hsplit.symm with
      ⟨hplace, gap, -, hgap, -, heq, hbehind⟩ |
        ⟨hplace, -, -, gap, trail, hgap, htrail, heq, hbehind⟩
    · rcases h'.1.cases hname hform hword hrest (hsplit.symm.trans htext) with
        ⟨-, gap', -, hgap', -, heq', hbehind'⟩ | ⟨hplace', -⟩
      · obtain ⟨rfl, -⟩ := run_append_inj hgap hgap' (not_blank_append hname _)
          (not_blank_append hname _) (hbehind.symm.trans hbehind')
        rw [heq, heq']
      · rw [places_none_of_places_some hplace] at hplace'
        cases hplace'
    · rcases h'.1.cases hname hform hword hrest (hsplit.symm.trans htext) with
        ⟨hplace', -⟩ | ⟨-, -, -, gap', trail', hgap', htrail', heq', hbehind'⟩
      · rw [places_none_of_places_some hplace'] at hplace
        cases hplace
      · obtain ⟨rfl, hcolons⟩ := run_append_inj hgap hgap' rfl rfl (hbehind.symm.trans hbehind')
        have htrails : form.trails = isBlank := by
          cases form with
          | behindWord words => cases hplace
          | beforeScope => rfl
        have hafter := h.2
        have hafter' := h'.2
        rw [htrails] at hafter hafter'
        simp only [List.cons.injEq, true_and] at hcolons
        obtain ⟨rfl, -⟩ := run_append_inj htrail htrail' hafter hafter' hcolons
        rw [heq, heq']
  subst hcovered
  exact ⟨rfl, List.append_cancel_left htext⟩

end RenameForm

/-! ## Rewriting one form in the passages of a text -/

namespace RenameForm

variable {form : RenameForm} {oldName newName : Text} {before : Option Char}
  (hold : IsTypeName oldName) (hform : form.words ⊆ typeKeywords)
include hform

/-- Signs are passed over. -/
theorem pass_signs {signs rest output : Text} (hsigns : ∀ c ∈ signs, isWord c = false)
    (hword : IsWordText oldName)
    (h : Rewritten (form.Takes oldName) (form.image newName) before (signs ++ rest) output) :
    ∃ output', output = signs ++ output' ∧
      Rewritten (form.Takes oldName) (form.image newName) (behind before signs) rest output' := by
  refine h.pass fun s v covered after hsplit hv htext htakes => ?_
  obtain ⟨c, v, rfl⟩ := List.exists_cons_of_ne_nil hv
  obtain ⟨-, word, hmem, more, rfl, -⟩ := htakes.1.begins hform
  refine not_endsWord_append (isWordText_of_mem_cons hword hmem) (more ++ after) ?_
  rw [← List.append_assoc, ← htext]
  exact endsWord_cons.mpr (hsigns c (by simp [hsplit]))

/-- A word at which nothing is taken is passed over. -/
theorem pass_word {word rest output : Text} (hword : IsWordText word)
    (hnone : ∀ covered after, word ++ rest = covered ++ after →
      ¬ form.Takes oldName before covered after)
    (h : Rewritten (form.Takes oldName) (form.image newName) before (word ++ rest) output) :
    ∃ output', output = word ++ output' ∧
      Rewritten (form.Takes oldName) (form.image newName) (behind before word) rest output' := by
  refine h.pass fun s v covered after hsplit hv htext htakes => ?_
  by_cases hs : s = []
  · subst hs
    rw [List.nil_append] at hsplit
    exact hnone covered after (hsplit ▸ htext) htakes
  · have hinside : ¬ outsideWord (behind before s) :=
      not_outsideWord_behind hs fun c hc => hword.2 c (by simp [hsplit, hc])
    exact hinside (htakes.1.begins hform).1

/-- What is taken is replaced. -/
theorem replace_takes {covered after output : Text} (hword : IsWordText oldName)
    (htakes : form.Takes oldName before covered after)
    (h : Rewritten (form.Takes oldName) (form.image newName) before (covered ++ after) output) :
    ∃ output', output = form.image newName covered ++ output' ∧
      Rewritten (form.Takes oldName) (form.image newName) (behind before covered) after
        output' := by
  generalize htext : covered ++ after = text at h
  cases h with
  | finished =>
    obtain ⟨-, word, hmem, rest, rfl, -⟩ := htakes.1.begins hform
    simp [(isWordText_of_mem_cons hword hmem).1] at htext
  | kept hnone => exact absurd htakes (hnone covered after htext.symm)
  | replaced hfound hrest =>
    obtain ⟨rfl, rfl⟩ := htakes.unique hword hform hfound htext
    exact ⟨_, rfl, hrest⟩

theorem eq_nil_of_rewritten {output : Text} (hword : IsWordText oldName)
    (h : Rewritten (form.Takes oldName) (form.image newName) before [] output) : output = [] := by
  generalize htext : ([] : Text) = text at h
  cases h with
  | finished => rfl
  | kept => cases htext
  | replaced hfound =>
    obtain ⟨-, word, hmem, rest, rfl, -⟩ := hfound.1.begins hform
    simp [(isWordText_of_mem_cons hword hmem).1] at htext

include hold

/-- Nothing is taken at a name, if it is not the old one or the form looks for a keyword. -/
theorem not_takes_name {name rest covered after : Text} (hname : IsTypeName name)
    (hrest : endsWord rest) (hnot : ¬ (form.places none = true ∧ name = oldName))
    (htext : name ++ rest = covered ++ after) : ¬ form.Takes oldName before covered after := by
  intro htakes
  rcases htakes.1.cases hold.word hform hname.word hrest htext with
    ⟨hplace, -⟩ | ⟨hplace, heq, -⟩
  · exact hname.other (mem_typeKeywords_of_places hform hplace)
  · exact hnot ⟨hplace, heq⟩

/-- Nothing is taken at a keyword, if not the old name follows or the form does not look for the
keyword. -/
theorem not_takes_keyword {keyword gap name rest covered after : Text}
    (hfits : Passage.Fits before (.behindKeyword keyword gap name) rest)
    (hnot : ¬ (form.places (some keyword) = true ∧ name = oldName))
    (htext : keyword ++ (gap ++ (name ++ rest)) = covered ++ after) :
    ¬ form.Takes oldName before covered after := by
  intro htakes
  cases hfits with
  | behindKeyword _ hrest hkeyword hne hgap hname =>
    have hends : endsWord (gap ++ (name ++ rest)) := endsWord_append_of_blank hne hgap _
    rcases htakes.1.cases hold.word hform (isWordText_of_mem_typeKeywords hkeyword) hends htext with
      ⟨hplace, gap', -, hgap', hafter, -, hbehind⟩ | ⟨-, rfl, -⟩
    · obtain ⟨-, hnames⟩ := run_append_inj hgap hgap' (not_blank_append hname.word _)
        (not_blank_append hold.word _) hbehind
      obtain ⟨heq, -⟩ := word_append_inj hname.word.2 hold.word.2 hrest hafter hnames
      exact hnot ⟨hplace, heq⟩
    · exact hold.other hkeyword

/-- A name in front of a double colon is changed by the form that looks for it there. -/
theorem rewrite_beforeScope {name gap trail after output : Text}
    (hfits : Passage.Fits before (.beforeScope name gap trail) after)
    (h : Rewritten (form.Takes oldName) (form.image newName) before
      (name ++ (gap ++ ':' :: ':' :: trail) ++ after) output) :
    ∃ output', output = ((Passage.beforeScope name gap trail).renamed
        (form.nameFor oldName newName)).text ++ output' ∧
      Rewritten (form.Takes oldName) (form.image newName)
        (behind before (name ++ (gap ++ ':' :: ':' :: trail))) after output' := by
  cases hfits with
  | beforeScope hjoined hname hgap htrail hafter =>
    by_cases hplace : form.places none = true ∧ name = oldName
    · have hchanged : (Passage.beforeScope name gap trail).renamed
          (form.nameFor oldName newName) = .beforeScope newName [] [] := by
        simp [Passage.renamed, nameFor, hplace]
      rw [hchanged]
      obtain ⟨hscope, rfl⟩ := hplace
      cases form with
      | behindWord words => cases hscope
      | beforeScope =>
        have htakes : beforeScope.Takes name before (name ++ (gap ++ ':' :: ':' :: trail)) after :=
          ⟨⟨hjoined, gap, trail, hgap, htrail, rfl⟩, hafter⟩
        exact replace_takes hform hname.word htakes h
    · have hkept : (Passage.beforeScope name gap trail).renamed
          (form.nameFor oldName newName) = .beforeScope name gap trail := by
        simp [Passage.renamed, nameFor, hplace]
      have hends := endsWord_scope hgap trail after
      rw [List.append_assoc] at h
      obtain ⟨output₁, rfl, h₁⟩ := pass_word hform hname.word
        (fun _ _ htext => not_takes_name hold hform hname hends hplace htext) h
      obtain ⟨output₂, rfl, h₂⟩ := pass_signs hform (not_word_of_scope hgap htrail) hold.word h₁
      refine ⟨output₂, ?_, ?_⟩
      · rw [hkept]
        exact (List.append_assoc _ _ _).symm
      · rwa [behind_append]

/-- A name behind a keyword is changed by the form that looks for the keyword. -/
theorem rewrite_behindKeyword {keyword gap name after output : Text}
    (hfits : Passage.Fits before (.behindKeyword keyword gap name) after)
    (hleft : ¬ (form.places none = true ∧ name = oldName))
    (h : Rewritten (form.Takes oldName) (form.image newName) before
      (keyword ++ (gap ++ name) ++ after) output) :
    ∃ output', output = ((Passage.behindKeyword keyword gap name).renamed
        (form.nameFor oldName newName)).text ++ output' ∧
      Rewritten (form.Takes oldName) (form.image newName)
        (behind before (keyword ++ (gap ++ name))) after output' := by
  have hfits' := hfits
  cases hfits with
  | behindKeyword hbefore hafter hkeyword hne hgap hname =>
    have hletters := isWordText_of_mem_typeKeywords hkeyword
    by_cases hplace : form.places (some keyword) = true ∧ name = oldName
    · have hchanged : (Passage.behindKeyword keyword gap name).renamed
          (form.nameFor oldName newName) = .behindKeyword keyword [' '] newName := by
        simp [Passage.renamed, nameFor, hplace]
      rw [hchanged]
      obtain ⟨hkeyword', rfl⟩ := hplace
      cases form with
      | beforeScope => cases hkeyword'
      | behindWord words =>
        have hwords : keyword ∈ words := List.contains_iff_mem.mp hkeyword'
        have htakes : (behindWord words).Takes name before (keyword ++ (gap ++ name)) after := by
          refine ⟨⟨hbefore, hafter, keyword, hwords, gap, hne, hgap, rfl⟩, ?_⟩
          simp [trails]
        have himage : (behindWord words).image newName (keyword ++ (gap ++ name)) =
            keyword ++ ([' '] ++ newName) := by
          rw [image, takeWhile_isWord hletters.2 (endsWord_append_of_blank hne hgap name)]
          rfl
        rw [Passage.text, ← himage]
        exact replace_takes hform hname.word htakes h
    · have hkept : (Passage.behindKeyword keyword gap name).renamed
          (form.nameFor oldName newName) = .behindKeyword keyword gap name := by
        simp [Passage.renamed, nameFor, hplace]
      rw [List.append_assoc, List.append_assoc] at h
      obtain ⟨output₁, rfl, h₁⟩ := pass_word hform hletters
        (fun _ _ htext => not_takes_keyword hold hform hfits' hplace htext) h
      obtain ⟨output₂, rfl, h₂⟩ := pass_signs hform (not_word_of_blank hgap) hold.word h₁
      obtain ⟨output₃, rfl, h₃⟩ := pass_word hform hname.word
        (fun _ _ htext => not_takes_name hold hform hname hafter hleft htext) h₂
      refine ⟨output₃, ?_, ?_⟩
      · rw [hkept, Passage.text, List.append_assoc, List.append_assoc]
      · rwa [behind_append, behind_append]

/-- A form holds at no other word. -/
theorem not_takes_word {letters rest covered after : Text}
    (hfits : Passage.Fits before (.word letters) rest)
    (htext : letters ++ rest = covered ++ after) : ¬ form.Takes oldName before covered after := by
  intro htakes
  cases hfits with
  | word _ hrest hword hkeyword hscope =>
    rcases htakes.1.cases hold.word hform hword hrest htext with
      ⟨hplace, gap, hne, hgap, hafter, -, hbehind⟩ |
        ⟨-, rfl, hjoined, gap, trail, hgap, -, -, hbehind⟩
    · exact hkeyword (mem_typeKeywords_of_places hform hplace)
        ⟨gap, oldName, after, hne, hgap, hold, hafter, hbehind⟩
    · exact hscope hold.other hjoined ⟨gap, trail ++ after, hgap, hbehind⟩

/-- Rewriting a form gives the new name to the passages at the places of the form. A form in
front of a double colon also holds at a name behind a keyword, so no such name may be left. -/
theorem eq_textAll_of_rewritten {passages : List Passage} {output : Text}
    (hcut : Passage.Cut before passages)
    (hleft : form.places none = true → ∀ keyword gap,
      .behindKeyword keyword gap oldName ∉ passages)
    (h : Rewritten (form.Takes oldName) (form.image newName) before (Passage.textAll passages)
      output) :
    output = Passage.textAll (passages.map (Passage.renamed (form.nameFor oldName newName))) := by
  induction hcut generalizing output with
  | nil => exact eq_nil_of_rewritten hform hold.word h
  | @cons before passage passages hfits hrest ih =>
    have hleftRest (hplace : form.places none = true) (keyword gap : Text) :
        .behindKeyword keyword gap oldName ∉ passages := fun hmem =>
      hleft hplace keyword gap (List.mem_cons_of_mem _ hmem)
    have hstep : ∃ output',
        output = (passage.renamed (form.nameFor oldName newName)).text ++ output' ∧
          Rewritten (form.Takes oldName) (form.image newName) (behind before passage.text)
            (Passage.textAll passages) output' := by
      cases passage with
      | sign c =>
        cases hfits with
        | sign hc =>
          have hsigns : ∀ d ∈ [c], isWord d = false := List.forall_mem_singleton.mpr hc
          exact pass_signs hform hsigns hold.word h
      | word letters =>
        have hnone (covered after : Text) (htext : letters ++ _ = covered ++ after) :
            ¬ form.Takes oldName before covered after := not_takes_word hold hform hfits htext
        cases hfits with
        | word _ _ hword => exact pass_word hform hword hnone h
      | beforeScope name gap trail => exact rewrite_beforeScope hold hform hfits h
      | behindKeyword keyword gap name =>
        refine rewrite_behindKeyword hold hform hfits (fun hplace => ?_) h
        exact hleft hplace.1 keyword gap (hplace.2 ▸ List.mem_cons_self)
    obtain ⟨output', rfl, h'⟩ := hstep
    rw [ih hleftRest h']
    rfl

end RenameForm

/-! ## The rules of a rename -/

/-- The new name for the old one, at the places of some forms. -/
def namesFor (forms : List RenameForm) (oldName newName : Text) (keyword : Option Text)
    (name : Text) : Option Text :=
  if forms.any (·.places keyword) = true ∧ name = oldName then some newName else none

/-- The new name for the old one, wherever it is. -/
def replacing (oldName newName : Text) (_ : Option Text) (name : Text) : Option Text :=
  if name = oldName then some newName else none

theorem namesFor_eq_some {forms : List RenameForm} {oldName newName name other : Text}
    {keyword : Option Text} (h : namesFor forms oldName newName keyword name = some other) :
    other = newName := by
  rw [namesFor, Option.ite_none_right_eq_some] at h
  exact (Option.some.inj h.2).symm

theorem replacing_eq_some {oldName newName name other : Text} {keyword : Option Text}
    (h : replacing oldName newName keyword name = some other) : other = newName := by
  rw [replacing, Option.ite_none_right_eq_some] at h
  exact (Option.some.inj h.2).symm

theorem isRenaming_replacing (oldName : Text) {newName : Text} (hnew : IsTypeName newName) :
    Passage.IsRenaming (replacing oldName newName) := by
  intro keyword name other h
  rw [replacing_eq_some h]
  exact hnew

namespace Passage

variable {image : Option Text → Text → Option Text} {before : Option Char}
  {passages : List Passage}

/-- Images that agree behind the keywords and where there is none give the same names. -/
theorem Cut.map_renamed_congr {other : Option Text → Text → Option Text}
    (h : Cut before passages)
    (hsame : ∀ keyword ∈ none :: typeKeywords.map some, image keyword = other keyword) :
    passages.map (renamed image) = passages.map (renamed other) := by
  induction h with
  | nil => rfl
  | cons hfits _ ih =>
    rw [List.map_cons, List.map_cons, ih]
    cases hfits with
    | behindKeyword _ _ hkeyword =>
      rw [renamed, renamed, hsame _ (List.mem_cons_of_mem _ (List.mem_map_of_mem hkeyword))]
    | beforeScope => rw [renamed, renamed, hsame none List.mem_cons_self]
    | word => rfl
    | sign => rfl

/-- A name that an image changes at every keyword is behind none of them afterwards. -/
theorem Cut.not_mem_renamed {name : Text} (h : Cut before passages)
    (hchanges : ∀ keyword ∈ typeKeywords, image (some keyword) name ≠ none)
    (hother : ∀ keyword found other, image keyword found = some other → other ≠ name)
    (keyword gap : Text) : .behindKeyword keyword gap name ∉ passages.map (renamed image) := by
  induction h with
  | nil => simp
  | cons hfits _ ih =>
    rw [List.map_cons, List.mem_cons, not_or]
    refine ⟨fun heq => ?_, ih⟩
    cases hfits with
    | word => cases heq
    | sign => cases heq
    | beforeScope =>
      rw [renamed] at heq
      split at heq
      · cases heq
      · cases heq
    | behindKeyword _ _ hkeyword =>
      rw [renamed] at heq
      split at heq
      · rename_i hfound
        cases heq
        exact hother _ _ _ hfound rfl
      · rename_i hnone
        cases heq
        exact hchanges _ hkeyword hnone

end Passage

section Rules

variable {rule : RenameRule} {form : RenameForm} {oldName newName : Text}
  {passages : List Passage}

theorem isGreedy_renameRules (oldName newName : Text) :
    List.Forall₂ (fun rule form => rule.pattern.IsGreedy form.trails)
      (renameRules oldName newName) renameForms := by
  have hnone (p : Pattern) : p.IsGreedy fun _ => false := fun _ found _ => by simp
  refine .cons (hnone _) (.cons (hnone _) (.cons (hnone _) (.cons ?_ .nil)))
  exact .seq _ (.seq _ (.seq _ (.seq _ (isGreedy_many isBlank))))

theorem RenameRule.applyAll_cons_of_ok {rules : List RenameRule} {text text' : Text}
    (h : rule.apply text = .ok text') : applyAll (rule :: rules) text = applyAll rules text' := by
  rw [applyAll, h]
  rfl

theorem RenameRule.applyAll_append {rules more : List RenameRule} {text text' : Text}
    (h : applyAll rules text = .ok text') :
    applyAll (rules ++ more) text = applyAll more text' := by
  induction rules generalizing text with
  | nil =>
    cases h
    rfl
  | cons rule rules ih =>
    rw [applyAll] at h
    cases happly : rule.apply text with
    | error fault =>
      rw [happly] at h
      cases h
    | ok text₁ =>
      rw [happly] at h
      rw [List.cons_append, applyAll_cons_of_ok happly]
      exact ih h

/-- A rule gives the new name to the passages at the places of its form. -/
theorem RenameRule.Rewrites.apply_textAll (hrule : rule.Rewrites form oldName newName)
    (hgreedy : rule.pattern.IsGreedy form.trails) (hold : IsTypeName oldName)
    (hcut : Passage.Cut none passages)
    (hleft : form.places none = true → ∀ keyword gap,
      .behindKeyword keyword gap oldName ∉ passages) :
    rule.apply (Passage.textAll passages) =
      .ok (Passage.textAll (passages.map (Passage.renamed (form.nameFor oldName newName)))) := by
  obtain ⟨image, happly, himage⟩ := hrule.apply (Passage.textAll passages)
  have hrewritten : Rewritten (form.Takes oldName) (form.image newName) none
      (Passage.textAll passages) (rule.pattern.replaceAll image (Passage.textAll passages)) := by
    refine Rewritten.replaceFrom_of_end? (fun before text hend => ?_)
      (fun before text found hend => ?_) (fun before covered after htakes => ?_)
      (fun before covered after htakes => ?_) none _
    · intro covered after htext htakes
      exact end?_eq_none_iff.mp hend covered after htext ((hrule.covers _ _ _).mpr htakes.1)
    · obtain ⟨covered, htext, hcovered⟩ := end?_eq_some hend
      exact ⟨covered, htext, (hrule.covers _ _ _).mp hcovered, hgreedy _ found hend⟩
    · exact himage _ _ _ htakes.1
    · obtain ⟨-, word, hmem, rest, rfl, -⟩ := htakes.1.begins hrule.words
      simp [(isWordText_of_mem_cons hold.word hmem).1]
  rw [happly, RenameForm.eq_textAll_of_rewritten hold hrule.words hcut hleft hrewritten]

variable (names : RenamesWord oldName newName) (hnew : IsTypeName newName)
include names hnew

namespace RenamesWord

omit hnew in
theorem newName_ne : newName ≠ oldName := by
  rintro rfl
  have hfirst : newName.takeWhile isWord = newName :=
    List.takeWhile_eq_self_iff.mpr names.old.2
  have hnot := names.new_not_mem
  rw [hfirst] at hnot
  exact hnot List.mem_cons_self

omit names in
theorem isRenaming_namesFor (forms : List RenameForm) :
    Passage.IsRenaming (namesFor forms oldName newName) := by
  intro keyword name other h
  rw [namesFor_eq_some h]
  exact hnew

omit hnew in
/-- Giving the new name at the places of a form after some others is giving it at the places of
all of them. -/
theorem map_namesFor_append (forms : List RenameForm) (form : RenameForm)
    (passages : List Passage) :
    (passages.map (Passage.renamed (namesFor forms oldName newName))).map
        (Passage.renamed (form.nameFor oldName newName)) =
      passages.map (Passage.renamed (namesFor (forms ++ [form]) oldName newName)) := by
  rw [List.map_map, Passage.renamed_comp_renamed fun keyword name other h => ?_]
  · congr 2
    funext keyword name
    by_cases hname : name = oldName
    · by_cases hforms : forms.any (·.places keyword) = true
      · simp [namesFor, RenameForm.nameFor, hname, hforms]
      · simp [namesFor, RenameForm.nameFor, hname, hforms]
    · simp [namesFor, RenameForm.nameFor, hname]
  · rw [namesFor_eq_some h]
    simp [RenameForm.nameFor, names.newName_ne]

/-- One rule after some others, which have changed the name behind every keyword if this one
looks for it in front of double colons. -/
theorem apply_namesFor (hrule : rule.Rewrites form oldName newName)
    (hgreedy : rule.pattern.IsGreedy form.trails) (hcut : Passage.Cut none passages)
    {forms : List RenameForm} (hleft : form.places none = true → ∀ keyword ∈ typeKeywords,
      forms.any (·.places (some keyword)) = true) :
    rule.apply (Passage.textAll (passages.map
        (Passage.renamed (namesFor forms oldName newName)))) =
      .ok (Passage.textAll (passages.map
        (Passage.renamed (namesFor (forms ++ [form]) oldName newName)))) := by
  have hold : IsTypeName oldName := ⟨names.old, names.old_not_mem⟩
  have himage : Passage.IsRenaming (namesFor forms oldName newName) :=
    isRenaming_namesFor hnew forms
  have hcut' := hcut.map_renamed himage (.refl none)
  rw [hrule.apply_textAll hgreedy hold hcut' fun hplace => ?_, names.map_namesFor_append]
  refine hcut.not_mem_renamed (fun keyword hkeyword => ?_) fun keyword found other h => ?_
  · simp [namesFor, hleft hplace keyword hkeyword]
  · rw [namesFor_eq_some h]
    exact names.newName_ne

/-- The rules of a rename give the new name to every passage that has the old one. -/
theorem applyAll_textAll (hcut : Passage.Cut none passages) :
    RenameRule.applyAll (renameRules oldName newName) (Passage.textAll passages) =
      .ok (Passage.textAll (passages.map (Passage.renamed (replacing oldName newName)))) := by
  have hrules := names.rewrites_renameRules
  have hgreedy := isGreedy_renameRules oldName newName
  rw [renameRules, renameForms] at hrules hgreedy
  simp only [List.forall₂_cons] at hrules hgreedy
  obtain ⟨hclass, hextends, hcreate, hscope, -⟩ := hrules
  obtain ⟨gclass, gextends, gcreate, gscope, -⟩ := hgreedy
  have hstart : passages.map (Passage.renamed (namesFor [] oldName newName)) = passages := by
    have hnone : namesFor [] oldName newName = fun _ _ => none := by
      funext keyword name
      simp [namesFor]
    rw [hnone, Passage.map_renamed_none]
  have hend : passages.map (Passage.renamed (namesFor renameForms oldName newName)) =
      passages.map (Passage.renamed (replacing oldName newName)) := by
    have hall : ∀ keyword ∈ none :: typeKeywords.map some,
        renameForms.any (·.places keyword) = true := by
      decide
    refine hcut.map_renamed_congr fun keyword hkeyword => funext fun name => ?_
    simp [namesFor, replacing, hall keyword hkeyword]
  calc RenameRule.applyAll (renameRules oldName newName) (Passage.textAll passages)
    _ = RenameRule.applyAll (renameRules oldName newName)
          (Passage.textAll (passages.map (Passage.renamed (namesFor [] oldName newName)))) := by
        rw [hstart]
    _ = .ok (Passage.textAll (passages.map
          (Passage.renamed (namesFor renameForms oldName newName)))) := by
        rw [renameRules,
          RenameRule.applyAll_cons_of_ok (names.apply_namesFor hnew hclass gclass hcut nofun),
          RenameRule.applyAll_cons_of_ok (names.apply_namesFor hnew hextends gextends hcut nofun),
          RenameRule.applyAll_cons_of_ok (names.apply_namesFor hnew hcreate gcreate hcut nofun),
          RenameRule.applyAll_cons_of_ok (names.apply_namesFor hnew hscope gscope hcut
            fun _ => by decide)]
        rfl
    _ = .ok (Passage.textAll (passages.map (Passage.renamed (replacing oldName newName)))) := by
        rw [hend]

end RenamesWord

end Rules

end Namespacer
