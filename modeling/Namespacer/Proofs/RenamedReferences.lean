import Namespacer.Proofs.NameOrigins
import Namespacer.Proofs.PascalNames
import Namespacer.Proofs.PathNames
import Namespacer.Proofs.ReferenceCoverage
import Namespacer.Proofs.RenamedForms

/-!
# Which references a rename leaves behind

The rules of a rename are patterns over the text, the references of a text are read from its
tree. The two meet at the name nodes: every reference is written at one
(`Concrete.traced_toTree`), and the node says where in the text its name stands.

* `RenameForm.Surrounds`: the parts of a text before and after a name that put it in one of
  the forms of the rules.
* `FileRename.renamesWord`: the names of a rename can be told apart by the rules if the old
  one is a word and more than letter case changes.
* `not_surrounds_of_mem_references`: a reference to the old name that is left is written in
  none of the forms.
* `not_forall_not_mem_references`: there may be such references, as a parameter type is none
  of the forms.
-/

namespace Namespacer

variable {tools : Tools}

open Text

/-! ## Where a node spells a name -/

theorem Text.takeBytes_append_dropBytes (bytes : Nat) (text : Text) :
    takeBytes bytes text ++ dropBytes bytes text = text := by
  induction text generalizing bytes with
  | nil => rfl
  | cons c text ih =>
    rw [takeBytes, dropBytes]
    split
    · rfl
    · rw [List.cons_append, ih]

theorem Text.isInfix_strip (text : Text) : strip text <:+: text := by
  have hend : strip text <+: text.dropWhile isBlank := List.rdropWhile_prefix isBlank _
  exact hend.isInfix.trans (List.dropWhile_suffix isBlank).isInfix

theorem Name.isInfix_text_ofText (spelling : Text) : (Name.ofText spelling).text <:+: spelling := by
  have hstrip := isInfix_strip spelling
  rw [Name.ofText]
  split
  · exact (List.dropWhile_suffix _).isInfix.trans hstrip
  · split
    · exact ((List.drop_suffix _ _).trans (List.dropWhile_suffix _)).isInfix.trans hstrip
    · split
      · exact hstrip
      · exact hstrip

namespace Concrete

variable {μ : Type}

/-- Whether a node covers a name that stands between two parts of a text. -/
def Spells (source : Text) (w : Concrete μ) (name before after : Text) : Prop :=
  ∃ lead trail, w.text source = lead ++ (name ++ trail) ∧
    before = takeBytes w.start source ++ lead ∧
      after = trail ++ dropBytes (w.stop - w.start) (dropBytes w.start source)

theorem Spells.source_eq {source name before after : Text} {w : Concrete μ}
    (h : w.Spells source name before after) : source = before ++ (name ++ after) := by
  obtain ⟨lead, trail, htext, rfl, rfl⟩ := h
  calc source
    _ = takeBytes w.start source ++
          (w.text source ++ dropBytes (w.stop - w.start) (dropBytes w.start source)) := by
        rw [text, takeBytes_append_dropBytes, takeBytes_append_dropBytes]
    _ = takeBytes w.start source ++ lead ++
          (name ++ (trail ++ dropBytes (w.stop - w.start) (dropBytes w.start source))) := by
        rw [htext]
        simp only [List.append_assoc]

/-- A name node spells its name. -/
theorem exists_spells {source : Text} {w : Concrete μ} {name : Name}
    (h : w.name? source = some name) : ∃ before after, w.Spells source name.text before after := by
  rw [name?] at h
  split at h
  · dsimp only at h
    split at h
    · cases h
    · cases h
      obtain ⟨lead, trail, htext⟩ :=
        (Name.isInfix_text_ofText _).trans (isInfix_strip (w.text source))
      exact ⟨_, _, lead, trail, htext.symm.trans (List.append_assoc _ _ _), rfl, rfl⟩
  · cases h

end Concrete

/-! ## Forms around a name -/

namespace RenameForm

/-- Whether what stands before and after a name puts it in a form: it is preceded by one of
the words and blanks, or followed by a double colon. Neither the word nor the name is the end
of a longer identifier. -/
def Surrounds : RenameForm → (before after : Text) → Prop
  | behindWord words, before, after =>
    endsWord after ∧ ∃ skipped, ∃ word ∈ words, ∃ gap ≠ [], (∀ c ∈ gap, isBlank c = true) ∧
      before = skipped ++ (word ++ gap) ∧ standsAlone (behind none skipped)
  | beforeScope, before, after =>
    standsAlone (behind none before) ∧ (behind none before).any isJoined = false ∧
      ∃ gap rest, (∀ c ∈ gap, isBlank c = true) ∧ after = gap ++ ':' :: ':' :: rest

/-- A name in a form is an occurrence of the form. -/
theorem Surrounds.occurs {form : RenameForm} {before after : Text} (h : form.Surrounds before after)
    (name : Text) : form.Occurs name none (before ++ (name ++ after)) := by
  cases form with
  | behindWord words =>
    obtain ⟨hafter, skipped, word, hword, gap, hne, hgap, rfl, halone⟩ := h
    refine ⟨skipped, word ++ (gap ++ name), after, by simp, halone, ?_⟩
    exact ⟨outsideWord_of_standsAlone halone, hafter, word, hword, gap, hne, hgap, rfl⟩
  | beforeScope =>
    obtain ⟨halone, hjoined, gap, rest, hgap, rfl⟩ := h
    refine ⟨before, name ++ (gap ++ [':', ':']), rest, by simp, halone, hjoined, ?_⟩
    exact ⟨gap, [], hgap, by simp, rfl⟩

end RenameForm

/-! ## The names of a rename -/

theorem continues_of_mem_pascalCase {c : Char} {text : Text} (h : c ∈ pascalCase text) :
    continues c = true := by
  have hletter {d : Char} (hd : isAlphanumeric d = true) : continues d = true :=
    continues_of_isWord (by simp [isWord, hd])
  obtain ⟨d, -, hd, rfl | hmem⟩ := mem_pascalCase h
  · exact hletter hd
  · obtain ⟨first, rest, hupper, hfirst, hrest⟩ := exists_upperChar_eq hd
    rw [hupper, List.mem_cons] at hmem
    rcases hmem with rfl | hmem
    · exact hletter hfirst
    · rcases hrest c hmem with hc | ⟨hbeyond, hblank⟩
      · exact hletter hc
      · have hsign : c ∉ Grammar.spaceSigns := by
          intro hsign
          have hown : Grammar.spaceSigns.all isOwnUpper = true := by decide +kernel
          have hnone : Grammar.spaceSigns.any isAlphanumeric = false := by decide +kernel
          exact not_mem_pascalCase (List.all_eq_true.mp hown c hsign)
            (Bool.eq_false_iff.mpr (List.any_eq_false.mp hnone c hsign)) text h
        simp [continues, Grammar.isNameChar, Grammar.isNameStart, hbeyond, hblank, hsign]

/-- The first word of a PascalCase name is not empty and none of the keywords. -/
theorem takeWhile_pascalCase {text : Text} (h : pascalCase text ≠ []) :
    (pascalCase text).takeWhile isWord ≠ [] ∧
      (pascalCase text).takeWhile isWord ∉ typeKeywords := by
  obtain ⟨c, rest, hc, heq⟩ := (pascalCase_cases text).resolve_left h
  obtain ⟨first, tail, hupper, hfirst, -⟩ := exists_upperChar_eq hc
  have hword : isWord first = true := by simp [isWord, hfirst]
  have htake : (pascalCase text).takeWhile isWord = first :: (tail ++ rest).takeWhile isWord := by
    rw [heq, hupper, List.cons_append, List.takeWhile_cons_of_pos hword]
  refine ⟨by simp [htake], ?_⟩
  rw [htake]
  intro hmem
  -- The keywords begin with lower-case letters, and these are in the upper case of none.
  have hlower : typeKeywords.all (fun word =>
      word.head?.all fun m => isOwnUpper m && !(upperChar m).contains m) = true := by
    decide
  have hkeyword := List.all_eq_true.mp hlower _ hmem
  simp only [List.head?_cons, Option.all_some, Bool.and_eq_true, Bool.not_eq_true',
    List.contains_eq_mem, decide_eq_false_iff_not] at hkeyword
  obtain ⟨hown, hnot⟩ := hkeyword
  have hfirstMem : first ∈ upperChar c := hupper ▸ List.mem_cons_self
  rw [eq_of_mem_upperChar hown hfirstMem] at hfirstMem
  exact hnot hfirstMem

namespace FileRename

variable {path : Path} {plan : FileRename}

theorem newName_of_ofPath? (h : ofPath? path = some plan) :
    plan.newName = pascalCase plan.oldName ∧ plan.newName ≠ plan.oldName ∧ plan.newName ≠ [] := by
  obtain ⟨hne, hnil, rfl⟩ := ofPath?_eq_some_iff.mp h
  exact ⟨rfl, hne, hnil⟩

/-- The rules can tell the names of a rename apart if the old one is a word, and no keyword. -/
theorem renamesWord_of_not_mem (hplan : ofPath? path = some plan)
    (hold : ∀ c ∈ plan.oldName, isWord c = true) (hother : plan.oldName ∉ typeKeywords) :
    RenamesWord plan.oldName plan.newName := by
  obtain ⟨hnew, hne, hnil⟩ := newName_of_ofPath? hplan
  rw [hnew] at hne hnil ⊢
  obtain ⟨hbegins, hkeyword⟩ := takeWhile_pascalCase hnil
  have holdNil : plan.oldName ≠ [] := by
    intro heq
    rw [heq] at hnil
    exact hnil rfl
  refine ⟨⟨holdNil, hold⟩, fun c hc => continues_of_mem_pascalCase hc, hbegins, hother, ?_⟩
  rw [List.mem_cons, not_or]
  refine ⟨fun heq => hne ?_, hkeyword⟩
  -- The old name would begin the new one, and so be in PascalCase.
  have hbegin : (pascalCase plan.oldName).takeWhile isWord <+: pascalCase plan.oldName :=
    List.takeWhile_prefix isWord
  rw [heq] at hbegin
  refine pascalCase_eq_of_prefix (fun c hc => ?_) hbegin
  have hunderscore : c ≠ '_' := by
    rintro rfl
    exact underscore_not_mem_pascalCase _ (hbegin.subset hc)
  simpa [isWord, hunderscore] using hold c hc

/-- The old name is no keyword if not only letter case changes. -/
theorem not_mem_typeKeywords (hplan : ofPath? path = some plan)
    (hcase : lower plan.newName ≠ lower plan.oldName) : plan.oldName ∉ typeKeywords := by
  intro hmem
  have hcases : ∀ word ∈ typeKeywords, lower (pascalCase word) = lower word := by decide
  rw [(newName_of_ofPath? hplan).1] at hcase
  exact hcase (hcases _ hmem)

/-- The rules can tell the names of a rename apart if the old one is a word and not only
letter case changes. -/
theorem renamesWord (hplan : ofPath? path = some plan) (hold : ∀ c ∈ plan.oldName, isWord c = true)
    (hcase : lower plan.newName ≠ lower plan.oldName) :
    RenamesWord plan.oldName plan.newName :=
  renamesWord_of_not_mem hplan hold (not_mem_typeKeywords hplan hcase)

end FileRename

/-! ## References that are left -/

open Concrete

theorem exists_mention {text name : Text} {context : Context}
    (h : ⟨some name, context⟩ ∈ Tree.references (Tree.ofText tools text)) :
    ∃ found : Name, found.text = name ∧
      ⟨some found, context⟩ ∈ ((tools.parse text).toTree text).mentions := by
  cases hblank : isBlankText text with
  | true =>
    rw [Tree.ofText, hblank] at h
    cases h
  | false =>
    rw [references_ofText hblank] at h
    obtain ⟨⟨found, context'⟩, hmention, heq⟩ := List.mem_map.mp h
    rw [Mention.reference, Reference.mk.injEq] at heq
    obtain ⟨hname, rfl⟩ := heq
    obtain ⟨found, rfl, rfl⟩ := Option.map_eq_some_iff.mp (Option.filter_eq_some_iff.mp hname).1
    exact ⟨found, rfl, hmention⟩

/-- A reference to the old name that the rules of a rename leave behind is written at a name
node, at a position of its context, and not in one of the forms of the rules: not directly
behind one of the words `class`, `extends`, `implements` and `new`, and not directly in front
of a double colon. This is so whoever parses the text, and whatever the trees are like. -/
theorem not_surrounds_of_mem_references {path : Path} {plan : FileRename}
    (hplan : FileRename.ofPath? path = some plan) (hold : ∀ c ∈ plan.oldName, isWord c = true)
    (hcase : lower plan.newName ≠ lower plan.oldName) (text : Text) :
    ∃ text', RenameRule.applyAll plan.rules text = .ok text' ∧
      ∀ context, ⟨some plan.oldName, context⟩ ∈ Tree.references (Tree.ofText tools text') →
        ∃ m ∈ (tools.parse text').nodes, ∃ w, TakesName text' m w context ∧
          (∃ before after, w.Spells text' plan.oldName before after) ∧
          ∀ before after, w.Spells text' plan.oldName before after →
            ∀ form ∈ renameForms, ¬ form.Surrounds before after := by
  obtain ⟨text', happly, hnone⟩ := (FileRename.renamesWord hplan hold hcase).exists_applyAll text
  refine ⟨text', happly, fun context hmem => ?_⟩
  obtain ⟨name, hname, hmention⟩ := exists_mention hmem
  obtain ⟨m, hm, w, htakes, hnode⟩ := traced_toTree text' (tools.parse text') name context hmention
  refine ⟨m, hm, w, htakes, hname ▸ exists_spells hnode, ?_⟩
  intro before after hspells form hform hsurrounds
  refine hnone form hform ?_
  rw [hspells.source_eq]
  exact hsurrounds.occurs plan.oldName

-- The sign `¡` may stand in a name, but is no word character. So the rules may make the old
-- name out of a longer one.
example : RenameRule.applyAll (renameRules "¡X" "X") "<?php ¡¡X::f();" =
    .ok "<?php ¡X::f();" := by
  decide +kernel

/-- The rename of a file `user_model.php`. -/
def userModelRename : FileRename :=
  ⟨⟨[], ["user_model.php".toList]⟩, ⟨[], ["UserModel.php".toList]⟩, "user_model", "UserModel"⟩

theorem ofPath?_userModel :
    FileRename.ofPath? ⟨[], ["user_model.php".toList]⟩ = some userModelRename := by
  decide

theorem not_surrounds_of_mem_references_userModel :
    FileRename.ofPath? ⟨[], ["user_model.php".toList]⟩ = some userModelRename ∧
      (∀ c ∈ userModelRename.oldName, isWord c = true) ∧
      lower userModelRename.newName ≠ lower userModelRename.oldName ∧
      ∃ text', RenameRule.applyAll userModelRename.rules
          "<?php function f(user_model $x) { return new user_model; }" = .ok text' ∧
        ∀ context,
          ⟨some userModelRename.oldName, context⟩ ∈ Tree.references (Tree.ofText .standard text') →
            ∃ m ∈ (Tools.standard.parse text').nodes, ∃ w, TakesName text' m w context ∧
              (∃ before after, w.Spells text' userModelRename.oldName before after) ∧
              ∀ before after, w.Spells text' userModelRename.oldName before after →
                ∀ form ∈ renameForms, ¬ form.Surrounds before after :=
  ⟨ofPath?_userModel, List.all_eq_true.mp (by decide), by decide,
    not_surrounds_of_mem_references ofPath?_userModel (List.all_eq_true.mp (by decide))
      (by decide) _⟩

/-- The type of a parameter is not in a form of the rules, and keeps the old name. -/
theorem not_forall_not_mem_references :
    ¬ ∀ (path : Path) (plan : FileRename) (text text' : Text),
      FileRename.ofPath? path = some plan → plan.oldName.head?.any Grammar.isNameStart = true →
        plan.oldName.all Grammar.isNameChar = true → lower plan.newName ≠ lower plan.oldName →
          (Grammar.parse? text).isSome = true → RenameRule.applyAll plan.rules text = .ok text' →
            (Grammar.parse? text').isSome = true →
              ∀ context,
                ⟨some plan.oldName, context⟩ ∉ Tree.references (Tree.ofText .standard text') := by
  intro h
  have hparse : (Grammar.parse? "<?php function f(user_model $x) {}").isSome = true := by
    decide +kernel
  have happly : RenameRule.applyAll userModelRename.rules
      "<?php function f(user_model $x) {}" = .ok "<?php function f(user_model $x) {}" := by
    decide +kernel
  have hmem : (⟨some "user_model".toList, .parameter⟩ : Reference) ∈
      Tree.references (Tree.ofText .standard "<?php function f(user_model $x) {}") := by
    decide +kernel
  exact h _ _ _ _ ofPath?_userModel (by decide) (by decide) (by decide) hparse happly hparse _ hmem

end Namespacer
