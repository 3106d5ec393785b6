import Namespacer.Proofs.PascalStability
import Namespacer.Proofs.RenamedPassages
import Namespacer.Proofs.RenamedReferences

/-!
# Renames change whole words, in any order

What the rules of some renames do to the words of a text. A rename looks for its old name as a
whole word, and the new names are old names of none (`pascalCase_pascalCase`), so no rename works
on what another one has written.

* `Text.wordRuns`, `Text.marks`: the words of a text, and what is neither in a word nor blank.
* `FileRename.exists_applyAll_changes_words`: the rules of a rename put the new name in the place
  of some words that are the old name, keep all marks, and have nothing to do afterwards.
* `FileRename.exists_applyAll_of_mem_iff`: the rules of some renames lead to the same text in any
  order of the renames.
-/

namespace Namespacer

open Text

/-! ## The words and marks of a text -/

namespace Text

/-- The words of a text, as the longest runs of word characters in it. -/
def wordRuns (text : Text) : List Text :=
  (text.splitOnP fun c => !isWord c).filter fun run => !run.isEmpty

/-- The characters of a text that are neither in a word nor blank. -/
def marks (text : Text) : Text := text.filter fun c => !isWord c && !isBlank c

/-- Words are read on both sides of a character that belongs to none. -/
theorem wordRuns_append_cons {c : Char} (hc : isWord c = false) (u v : Text) :
    wordRuns (u ++ c :: v) = wordRuns u ++ wordRuns v := by
  rw [wordRuns, List.splitOnP_append_cons u v (by simp [hc]), List.filter_append]
  rfl

theorem wordRuns_cons {c : Char} (hc : isWord c = false) (text : Text) :
    wordRuns (c :: text) = wordRuns text := wordRuns_append_cons hc [] text

theorem wordRuns_append_of_signs {signs : Text} (hsigns : ∀ c ∈ signs, isWord c = false)
    (rest : Text) : wordRuns (signs ++ rest) = wordRuns rest := by
  induction signs with
  | nil => rfl
  | cons c signs ih =>
    rw [List.forall_mem_cons] at hsigns
    rw [List.cons_append, wordRuns_cons hsigns.1, ih hsigns.2]

theorem wordRuns_of_word {word : Text} (hword : IsWordText word) : wordRuns word = [word] := by
  have hletters : ∀ c ∈ word, (!isWord c) = false := fun c hc => by simp [hword.2 c hc]
  rw [wordRuns, List.splitOnP_eq_singleton hletters]
  simp [hword.1]

theorem wordRuns_append_of_word {word rest : Text} (hword : IsWordText word)
    (hrest : endsWord rest) : wordRuns (word ++ rest) = word :: wordRuns rest := by
  cases rest with
  | nil =>
    rw [List.append_nil, wordRuns_of_word hword]
    rfl
  | cons c rest =>
    have hc := endsWord_cons.mp hrest
    rw [wordRuns_append_cons hc, wordRuns_of_word hword, wordRuns_cons hc]
    rfl

theorem marks_append (u v : Text) : marks (u ++ v) = marks u ++ marks v := List.filter_append ..

theorem marks_of_isWord {text : Text} (h : ∀ c ∈ text, isWord c = true) : marks text = [] :=
  List.filter_eq_nil_iff.mpr fun c hc => by simp [h c hc]

theorem marks_of_isBlank {text : Text} (h : ∀ c ∈ text, isBlank c = true) : marks text = [] :=
  List.filter_eq_nil_iff.mpr fun c hc => by simp [h c hc]

end Text

namespace Passage

/-- The words of a passage. -/
def words : Passage → List Text
  | behindKeyword keyword _ name => [keyword, name]
  | beforeScope name _ _ => [name]
  | word letters => [letters]
  | sign _ => []

variable {image : Option Text → Text → Option Text} {before : Option Char}
  {passages : List Passage}

theorem Fits.wordRuns {passage : Passage} {after : Text} (h : passage.Fits before after) :
    wordRuns (passage.text ++ after) = passage.words ++ wordRuns after := by
  cases h with
  | behindKeyword _ hafter hkeyword hne hgap hname =>
    rw [text, List.append_assoc, List.append_assoc,
      wordRuns_append_of_word (isWordText_of_mem_typeKeywords hkeyword)
        (endsWord_append_of_blank hne hgap _),
      wordRuns_append_of_signs (not_word_of_blank hgap),
      wordRuns_append_of_word hname.word hafter]
    rfl
  | beforeScope _ hname hgap htrail =>
    rw [text, List.append_assoc, wordRuns_append_of_word hname.word (endsWord_scope hgap _ _),
      wordRuns_append_of_signs (not_word_of_scope hgap htrail)]
    rfl
  | word _ hafter hword => exact wordRuns_append_of_word hword hafter
  | sign hc => exact wordRuns_cons hc after

/-- The words of a text are those of its passages. -/
theorem Cut.wordRuns_textAll (h : Cut before passages) :
    wordRuns (textAll passages) = passages.flatMap words := by
  induction h with
  | nil => rfl
  | cons hfits _ ih => rw [textAll_cons, hfits.wordRuns, ih, List.flatMap_cons]

/-- Other names change words at the places of names only. -/
theorem forall₂_words_renamed (image : Option Text → Text → Option Text)
    (passages : List Passage) :
    List.Forall₂ (fun word other => other = word ∨ ∃ keyword, image keyword word = some other)
      (passages.flatMap words) ((passages.map (renamed image)).flatMap words) := by
  induction passages with
  | nil => exact .nil
  | cons passage passages ih =>
    rw [List.map_cons, List.flatMap_cons, List.flatMap_cons]
    refine List.rel_append ?_ ih
    cases passage with
    | behindKeyword keyword gap name =>
      rw [renamed]
      split
      · rename_i other hother
        exact .cons (.inl rfl) (.cons (.inr ⟨_, hother⟩) .nil)
      · exact .cons (.inl rfl) (.cons (.inl rfl) .nil)
    | beforeScope name gap trail =>
      rw [renamed]
      split
      · rename_i other hother
        exact .cons (.inr ⟨_, hother⟩) .nil
      · exact .cons (.inl rfl) .nil
    | word letters => exact .cons (.inl rfl) .nil
    | sign c => exact .nil

/-- Other names leave the marks of a passage as they are. -/
theorem Fits.marks_renamed (himage : IsRenaming image) {passage : Passage} {after : Text}
    (h : passage.Fits before after) : marks (passage.renamed image).text = marks passage.text := by
  cases h with
  | behindKeyword _ _ hkeyword hne hgap hname =>
    obtain ⟨gap', name', heq, -, hgap', hname'⟩ :=
      exists_renamed_behindKeyword himage hne hgap hname
    rw [heq]
    simp only [text, marks_append, marks_of_isBlank hgap, marks_of_isBlank hgap',
      marks_of_isWord hname.word.2, marks_of_isWord hname'.word.2]
  | beforeScope _ hname hgap htrail =>
    obtain ⟨name', gap', trail', heq, hname', hgap', htrail'⟩ :=
      exists_renamed_beforeScope himage hname hgap htrail
    have hcolons (trail : Text) : marks (':' :: ':' :: trail) = ':' :: ':' :: marks trail := rfl
    rw [heq]
    simp only [text, hcolons, marks_append, marks_of_isBlank hgap, marks_of_isBlank hgap',
      marks_of_isBlank htrail, marks_of_isBlank htrail', marks_of_isWord hname.word.2,
      marks_of_isWord hname'.word.2]
  | word => rfl
  | sign => rfl

theorem Cut.marks_map_renamed (himage : IsRenaming image) (h : Cut before passages) :
    marks (textAll (passages.map (renamed image))) = marks (textAll passages) := by
  induction h with
  | nil => rfl
  | cons hfits _ ih =>
    rw [List.map_cons, textAll_cons, textAll_cons, marks_append, marks_append,
      hfits.marks_renamed himage, ih]

/-- Other names change whole words only, and no marks. -/
theorem Cut.forall₂_wordRuns (himage : IsRenaming image) (h : Cut none passages) :
    List.Forall₂ (fun word other => other = word ∨ ∃ keyword, image keyword word = some other)
      (wordRuns (textAll passages)) (wordRuns (textAll (passages.map (renamed image)))) := by
  rw [h.wordRuns_textAll, (h.map_renamed himage (.refl none)).wordRuns_textAll]
  exact forall₂_words_renamed image passages

end Passage

/-! ## Plans for ASCII names -/

namespace FileRename

/-- A plan for a file whose name is an ASCII word and none of the keywords of the rules. -/
structure IsPlain (plan : FileRename) : Prop where
  planned : ∃ path, ofPath? path = some plan
  ascii : IsAscii plan.oldName
  plain : IsTypeName plan.oldName

namespace IsPlain

variable {plan : FileRename} (h : plan.IsPlain)
include h

theorem newName_eq : plan.newName = pascalCase plan.oldName := by
  obtain ⟨path, hpath⟩ := h.planned
  exact (newName_of_ofPath? hpath).1

theorem renamesWord : RenamesWord plan.oldName plan.newName := by
  obtain ⟨path, hpath⟩ := h.planned
  exact renamesWord_of_not_mem hpath h.plain.word.2 h.plain.other

theorem isTypeName_newName : IsTypeName plan.newName := by
  have hletters : ∀ c ∈ plan.newName, isWord c = true := by
    intro c hc
    rw [h.newName_eq] at hc
    simp [isWord, (ascii_of_mem_pascalCase h.ascii hc).2]
  have hfirst := List.takeWhile_eq_self_iff.mpr hletters
  have hbegins := h.renamesWord.begins
  have hother := h.renamesWord.new_not_mem
  rw [hfirst] at hbegins hother
  exact ⟨⟨hbegins, hletters⟩, fun hmem => hother (List.mem_cons_of_mem _ hmem)⟩

theorem applyAll_textAll {passages : List Passage} (hcut : Passage.Cut none passages) :
    RenameRule.applyAll plan.rules (Passage.textAll passages) =
      .ok (Passage.textAll
        (passages.map (Passage.renamed (replacing plan.oldName plan.newName)))) :=
  h.renamesWord.applyAll_textAll h.isTypeName_newName hcut

end IsPlain

/-- The new names that some plans give to their old names. -/
def newNames (plans : List FileRename) (_ : Option Text) (name : Text) : Option Text :=
  if plans.any (·.oldName == name) then some (pascalCase name) else none

theorem newNames_eq_some {plans : List FileRename} (hplans : ∀ plan ∈ plans, plan.IsPlain)
    {keyword : Option Text} {name other : Text} (h : newNames plans keyword name = some other) :
    ∃ plan ∈ plans, name = plan.oldName ∧ other = plan.newName := by
  rw [newNames] at h
  split at h
  · rename_i hany
    obtain ⟨plan, hplan, hname⟩ := List.any_eq_true.mp hany
    obtain rfl := beq_iff_eq.mp hname
    cases h
    exact ⟨plan, hplan, rfl, (hplans plan hplan).newName_eq.symm⟩
  · cases h

theorem isRenaming_newNames {plans : List FileRename} (hplans : ∀ plan ∈ plans, plan.IsPlain) :
    Passage.IsRenaming (newNames plans) := by
  intro keyword name other h
  obtain ⟨plan, hplan, -, rfl⟩ := newNames_eq_some hplans h
  exact (hplans plan hplan).isTypeName_newName

/-- A new name is the old name of no plan, since it is in PascalCase. -/
theorem newNames_newName {plan : FileRename} (hplan : plan.IsPlain) {plans : List FileRename}
    (hplans : ∀ plan ∈ plans, plan.IsPlain) (keyword : Option Text) :
    newNames plans keyword plan.newName = none := by
  rw [newNames, if_neg]
  intro hany
  obtain ⟨other, hother, heq⟩ := List.any_eq_true.mp hany
  refine (hplans other hother).renamesWord.newName_ne ?_
  rw [(hplans other hother).newName_eq, beq_iff_eq.mp heq, hplan.newName_eq,
    pascalCase_pascalCase hplan.ascii]

/-- Giving new names a second time changes nothing. -/
theorem map_newNames_again {plans : List FileRename} (hplans : ∀ plan ∈ plans, plan.IsPlain)
    (passages : List Passage) :
    (passages.map (Passage.renamed (newNames plans))).map (Passage.renamed (newNames plans)) =
      passages.map (Passage.renamed (newNames plans)) := by
  rw [List.map_map, Passage.renamed_comp_renamed fun keyword name other h => ?_]
  · simp
  · obtain ⟨plan, hplan, -, rfl⟩ := newNames_eq_some hplans h
    exact newNames_newName (hplans plan hplan) hplans keyword

/-- The rules of some plans, one plan after another, give to every passage with an old name the
new one. -/
theorem applyAll_textAll {plans : List FileRename} (hplans : ∀ plan ∈ plans, plan.IsPlain)
    {passages : List Passage} (hcut : Passage.Cut none passages) :
    RenameRule.applyAll (plans.flatMap rules) (Passage.textAll passages) =
      .ok (Passage.textAll (passages.map (Passage.renamed (newNames plans)))) := by
  induction plans generalizing passages with
  | nil =>
    have hnone : newNames [] = fun _ _ => none := by
      funext keyword name
      simp [newNames]
    rw [hnone, Passage.map_renamed_none]
    rfl
  | cons plan plans ih =>
    rw [List.forall_mem_cons] at hplans
    obtain ⟨hplan, hrest⟩ := hplans
    have himage := isRenaming_replacing plan.oldName hplan.isTypeName_newName
    have hunion : Passage.renamed (newNames plans) ∘
        Passage.renamed (replacing plan.oldName plan.newName) =
          Passage.renamed (newNames (plan :: plans)) := by
      rw [Passage.renamed_comp_renamed fun keyword name other h =>
        replacing_eq_some h ▸ newNames_newName hplan hrest keyword]
      congr 1
      funext keyword name
      by_cases hname : name = plan.oldName
      · simp [replacing, newNames, hname, hplan.newName_eq]
      · simp [replacing, newNames, hname, Ne.symm hname]
    rw [List.flatMap_cons, RenameRule.applyAll_append (hplan.applyAll_textAll hcut),
      ih hrest (hcut.map_renamed himage (.refl none)), List.map_map, hunion]

/-- The rules of a rename, applied to any text, change whole words only: some words that are the
old name become the new one. They keep all marks, and applied again they change nothing. -/
theorem exists_applyAll_changes_words {plan : FileRename} (hplan : plan.IsPlain) (text : Text) :
    ∃ text', RenameRule.applyAll plan.rules text = .ok text' ∧
      List.Forall₂ (fun word other => other = word ∨ word = plan.oldName ∧ other = plan.newName)
        (wordRuns text) (wordRuns text') ∧
      marks text' = marks text ∧ RenameRule.applyAll plan.rules text' = .ok text' := by
  obtain ⟨passages, hcut, rfl⟩ := Passage.exists_cut none text (.inl rfl)
  have hplans : ∀ other ∈ [plan], other.IsPlain := List.forall_mem_singleton.mpr hplan
  have himage := isRenaming_newNames hplans
  have hrules : plan.rules = [plan].flatMap rules := (List.flatMap_singleton rules plan).symm
  rw [hrules]
  refine ⟨_, applyAll_textAll hplans hcut, ?_, hcut.marks_map_renamed himage, ?_⟩
  · refine (hcut.forall₂_wordRuns himage).imp fun word other h => h.imp_right ?_
    rintro ⟨keyword, hother⟩
    obtain ⟨plan, hmem, hchange⟩ := newNames_eq_some hplans hother
    rwa [List.mem_singleton.mp hmem] at hchange
  · rw [applyAll_textAll hplans (hcut.map_renamed himage (.refl none)),
      map_newNames_again hplans]

theorem isPlain_userModel : userModelRename.IsPlain where
  planned := ⟨_, ofPath?_userModel⟩
  ascii := by simp [IsAscii, userModelRename]
  plain := ⟨⟨by decide, List.all_eq_true.mp (by decide)⟩, by decide⟩

theorem exists_applyAll_changes_words_userModel :
    userModelRename.IsPlain ∧
      ∃ text', RenameRule.applyAll userModelRename.rules
          "<?php new  user_model; user_model :: f(user_models());" = .ok text' ∧
        List.Forall₂ (fun word other => other = word ∨
            word = userModelRename.oldName ∧ other = userModelRename.newName)
          (wordRuns "<?php new  user_model; user_model :: f(user_models());")
          (wordRuns text') ∧
        marks text' = marks "<?php new  user_model; user_model :: f(user_models());" ∧
        RenameRule.applyAll userModelRename.rules text' = .ok text' :=
  ⟨isPlain_userModel, exists_applyAll_changes_words isPlain_userModel _⟩

example : RenameRule.applyAll userModelRename.rules
    "<?php new  user_model; user_model :: f(user_models());" =
      .ok "<?php new UserModel; UserModel::f(user_models());" := by
  decide +kernel

/-- The rules of some plans lead to the same text in any order of the plans, and however often a
plan is listed. No rename works on what another one has written: a word of the text is kept, or
becomes the new name of a plan whose old name it is. -/
theorem exists_applyAll_of_mem_iff {plans others : List FileRename}
    (hplans : ∀ plan ∈ plans, plan.IsPlain) (hsame : ∀ plan, plan ∈ plans ↔ plan ∈ others)
    (text : Text) :
    ∃ text', RenameRule.applyAll (plans.flatMap rules) text = .ok text' ∧
      RenameRule.applyAll (others.flatMap rules) text = .ok text' ∧
      List.Forall₂
        (fun word other => other = word ∨
          ∃ plan ∈ plans, word = plan.oldName ∧ other = plan.newName)
        (wordRuns text) (wordRuns text') := by
  obtain ⟨passages, hcut, rfl⟩ := Passage.exists_cut none text (.inl rfl)
  have hothers : ∀ plan ∈ others, plan.IsPlain := fun plan hplan =>
    hplans plan ((hsame plan).mpr hplan)
  have hnames : newNames others = newNames plans := by
    funext keyword name
    simp only [newNames, List.any_eq_true, hsame]
  refine ⟨_, applyAll_textAll hplans hcut, ?_, ?_⟩
  · rw [applyAll_textAll hothers hcut, hnames]
  · refine (hcut.forall₂_wordRuns (isRenaming_newNames hplans)).imp fun word other h => ?_
    exact h.imp_right fun ⟨keyword, hother⟩ => newNames_eq_some hplans hother

/-- The rename of a file `user.php`. -/
def userRename : FileRename :=
  ⟨⟨[], ["user.php".toList]⟩, ⟨[], ["User.php".toList]⟩, "user", "User"⟩

theorem isPlain_user : userRename.IsPlain where
  planned := ⟨⟨[], ["user.php".toList]⟩, by decide⟩
  ascii := by simp [IsAscii, userRename]
  plain := ⟨⟨by decide, List.all_eq_true.mp (by decide)⟩, by decide⟩

theorem exists_applyAll_of_mem_iff_users :
    (∀ plan ∈ [userModelRename, userRename], plan.IsPlain) ∧
      (∀ plan, plan ∈ [userModelRename, userRename] ↔
        plan ∈ [userRename, userModelRename, userRename]) ∧
      ∃ text', RenameRule.applyAll ([userModelRename, userRename].flatMap rules)
          "<?php class user extends user_model {}" = .ok text' ∧
        RenameRule.applyAll ([userRename, userModelRename, userRename].flatMap rules)
          "<?php class user extends user_model {}" = .ok text' ∧
        List.Forall₂
          (fun word other => other = word ∨ ∃ plan ∈ [userModelRename, userRename],
            word = plan.oldName ∧ other = plan.newName)
          (wordRuns "<?php class user extends user_model {}") (wordRuns text') := by
  have hplans : ∀ plan ∈ [userModelRename, userRename], plan.IsPlain :=
    List.forall_mem_cons.mpr ⟨isPlain_userModel, List.forall_mem_singleton.mpr isPlain_user⟩
  have hsame (plan : FileRename) : plan ∈ [userModelRename, userRename] ↔
      plan ∈ [userRename, userModelRename, userRename] := by
    simp only [List.mem_cons, List.not_mem_nil, or_false]
    tauto
  exact ⟨hplans, hsame, exists_applyAll_of_mem_iff hplans hsame _⟩

end FileRename

end Namespacer
