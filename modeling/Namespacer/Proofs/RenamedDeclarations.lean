import Namespacer.Proofs.DeclaredClasses
import Namespacer.Proofs.RenamedWords

/-!
# Which declarations a rename leaves behind

A declaration is found in a text where two words follow one another: one of `class`, `interface`,
`trait` and `enum`, and the name, both in any letter case. A rename changes the second of two such
words if it is exactly the old name and the first one is a keyword of the rules, of which only
`class` begins a declaration, or if a double colon follows.

* `Text.Successive`: two words follow one another in a text.
* `Passage.Cut.exists_successive_iff`: the pairs of words of the changed text are those of the
  text, with the new name at the places of the rules.
* `FileRename.isDeclared_iff_exists_kept`: exactly those declarations of the old name are left that
  the rules do not look for.
* `FileRename.not_forall_not_isDeclared`: an interface keeps its old name.
-/

namespace Namespacer

open Text

namespace Text

/-! ## Words that follow one another -/

/-- Whether a text begins with blanks and a word, and what stands behind the word. -/
def NextWord (text word after : Text) : Prop :=
  ∃ gap ≠ [], (∀ c ∈ gap, isBlank c = true) ∧ IsWordText word ∧ endsWord after ∧
    text = gap ++ (word ++ after)

/-- Whether two words follow one another in the text behind a character, with blanks between
them, and what stands behind the second. -/
def Successive (before : Option Char) (text first second after : Text) : Prop :=
  ∃ skipped rest, text = skipped ++ (first ++ rest) ∧ outsideWord (behind before skipped) ∧
    IsWordText first ∧ NextWord rest second after

variable {before : Option Char} {text first second after word rest : Text}

theorem endsWord_of_nextWord (h : NextWord text word after) : endsWord text := by
  obtain ⟨gap, hne, hgap, -, -, rfl⟩ := h
  exact endsWord_append_of_blank hne hgap _

theorem nextWord_iff {gap found more : Text} (hne : gap ≠ [])
    (hgap : ∀ c ∈ gap, isBlank c = true) (hword : IsWordText word) (hrest : endsWord rest) :
    NextWord (gap ++ (word ++ rest)) found more ↔ found = word ∧ more = rest := by
  constructor
  · rintro ⟨gap', -, hgap', hfound, hmore, htext⟩
    obtain ⟨-, hbehind⟩ := run_append_inj hgap hgap' (not_blank_append hword _)
      (not_blank_append hfound _) htext
    obtain ⟨rfl, rfl⟩ := word_append_inj hword.2 hfound.2 hrest hmore hbehind
    exact ⟨rfl, rfl⟩
  · rintro ⟨rfl, rfl⟩
    exact ⟨gap, hne, hgap, hword, hrest, rfl⟩

theorem not_nextWord_colon {gap : Text} (hgap : ∀ c ∈ gap, isBlank c = true) :
    ¬ NextWord (gap ++ ':' :: rest) word after := by
  rintro ⟨gap', -, hgap', hword, -, htext⟩
  obtain ⟨-, hbehind⟩ := run_append_inj hgap hgap' rfl (not_blank_append hword _) htext
  refine not_endsWord_append hword after ?_
  rw [← hbehind]
  exact endsWord_cons.mpr (by decide)

theorem not_successive_nil : ¬ Successive before [] first second after := by
  rintro ⟨skipped, rest, htext, -, hfirst, -⟩
  exact hfirst.1 (List.append_eq_nil_iff.mp (List.append_eq_nil_iff.mp htext.symm).2).1

theorem successive_cons {c : Char} (hc : isWord c = false) :
    Successive before (c :: text) first second after ↔
      Successive (some c) text first second after := by
  constructor
  · rintro ⟨skipped, rest, htext, hstart, hfirst, hnext⟩
    cases skipped with
    | nil =>
      refine absurd ?_ (not_endsWord_append hfirst rest)
      rw [← List.nil_append (first ++ rest), ← htext]
      exact endsWord_cons.mpr hc
    | cons d skipped =>
      obtain ⟨rfl, rfl⟩ := List.cons.inj htext
      exact ⟨skipped, rest, rfl, hstart, hfirst, hnext⟩
  · rintro ⟨skipped, rest, rfl, hstart, hfirst, hnext⟩
    exact ⟨c :: skipped, rest, rfl, hstart, hfirst, hnext⟩

theorem successive_append_of_signs {signs : Text} (hsigns : ∀ c ∈ signs, isWord c = false) :
    Successive before (signs ++ text) first second after ↔
      Successive (behind before signs) text first second after := by
  induction signs generalizing before with
  | nil => rfl
  | cons c signs ih =>
    rw [List.forall_mem_cons] at hsigns
    rw [List.cons_append, successive_cons hsigns.1, ih hsigns.2, behind_cons]

/-- In a text with a word in front, the word is the first of two words, or both are behind it. -/
theorem successive_append_of_word (hbefore : outsideWord before) (hword : IsWordText word)
    (hrest : endsWord rest) : Successive before (word ++ rest) first second after ↔
      first = word ∧ NextWord rest second after ∨
        Successive (behind before word) rest first second after := by
  constructor
  · rintro ⟨skipped, more, htext, hstart, hfirst, hnext⟩
    rcases outsideWord_cases hword.2 hstart htext.symm with rfl | ⟨skipped, rfl, rfl⟩
    · obtain ⟨rfl, rfl⟩ := word_append_inj hword.2 hfirst.2 hrest (endsWord_of_nextWord hnext) htext
      exact .inl ⟨rfl, hnext⟩
    · rw [behind_append] at hstart
      exact .inr ⟨skipped, more, rfl, hstart, hfirst, hnext⟩
  · rintro (⟨rfl, hnext⟩ | ⟨skipped, more, rfl, hstart, hfirst, hnext⟩)
    · exact ⟨[], rest, rfl, hbefore, hword, hnext⟩
    · refine ⟨word ++ skipped, more, by simp, ?_, hfirst, hnext⟩
      rwa [behind_append]

end Text

namespace Passage

theorem textAll_map_renamed_signs (image : Option Text → Text → Option Text) (signs : Text)
    (passages : List Passage) :
    textAll ((signs.map sign ++ passages).map (renamed image)) =
      signs ++ textAll (passages.map (renamed image)) := by
  rw [List.map_append, List.map_map]
  exact textAll_signs signs _

end Passage

/-! ## Words that follow one another after a rename -/

open Classical in
/-- What becomes of a word where the old name is changed if it stands at a place of a rule. -/
noncomputable def changedAt (oldName newName : Text) (isPlace : Prop) (word : Text) : Text :=
  if word = oldName ∧ isPlace then newName else word

theorem isWordText_changedAt {oldName newName word : Text} {isPlace : Prop}
    (hnew : IsWordText newName) (hword : IsWordText word) :
    IsWordText (changedAt oldName newName isPlace word) := by
  rw [changedAt]
  split
  · exact hnew
  · exact hword

theorem changedAt_of_ne {oldName newName word : Text} {isPlace : Prop} (h : word ≠ oldName) :
    changedAt oldName newName isPlace word = word := if_neg fun hname => h hname.1

namespace Passage

variable {oldName newName : Text} (hold : IsTypeName oldName) (hnew : IsTypeName newName)
  {before before' : Option Char} {passages : List Passage}

include hold hnew

/-- Where a name may begin, both the text and the changed one begin with a word or neither does.
The word is changed if it is the old name and a double colon follows. -/
theorem Cut.front_cases (h : Cut before passages) (hbefore : before.any isJoined = false) :
    (endsWord (textAll passages) ∧
        endsWord (textAll (passages.map (renamed (replacing oldName newName))))) ∨
      ∃ word after after', IsWordText word ∧ endsWord after ∧ endsWord after' ∧
        textAll passages = word ++ after ∧
          textAll (passages.map (renamed (replacing oldName newName))) =
            changedAt oldName newName (StartsScope after) word ++ after' := by
  have himage := isRenaming_replacing oldName hnew
  cases h with
  | nil => exact .inl ⟨rfl, rfl⟩
  | @cons _ passage passages hfits hrest =>
    have hoff := hrest.endsWord_renamed himage
    rw [List.map_cons, textAll_cons, textAll_cons]
    generalize textAll (passages.map (renamed (replacing oldName newName))) = output at hoff ⊢
    cases hfits with
    | sign hc => exact .inl ⟨endsWord_cons.mpr hc, endsWord_cons.mpr hc⟩
    | @word letters _ _ hafter hword _ hscope =>
      refine .inr ⟨letters, textAll passages, output, hword, hafter, hoff.mpr hafter, rfl, ?_⟩
      rw [changedAt, if_neg]
      · rfl
      · rintro ⟨rfl, hstarts⟩
        exact hscope hold.other hbefore hstarts
    | @beforeScope name gap trail _ _ hname hgap =>
      have hstarts : StartsScope (gap ++ ':' :: ':' :: trail ++ textAll passages) :=
        ⟨gap, trail ++ textAll passages, hgap, by simp⟩
      by_cases hplace : name = oldName
      · refine .inr ⟨name, _, ':' :: ':' :: output, hname.word, endsWord_scope hgap _ _,
          endsWord_cons.mpr (by decide), List.append_assoc _ _ _, ?_⟩
        rw [changedAt, if_pos ⟨hplace, hstarts⟩]
        simp [renamed, replacing, hplace, text]
      · refine .inr ⟨name, _, _, hname.word, endsWord_scope hgap _ _,
          endsWord_scope hgap trail output, List.append_assoc _ _ _, ?_⟩
        rw [changedAt_of_ne hplace]
        simp [renamed, replacing, hplace, text]
    | @behindKeyword keyword gap name _ _ _ hkeyword hne hgap hname =>
      obtain ⟨gap', name', heq, hne', hgap', -⟩ :=
        exists_renamed_behindKeyword himage hne hgap hname
      have hother : keyword ≠ oldName := by
        rintro rfl
        exact hold.other hkeyword
      refine .inr ⟨keyword, _, gap' ++ name' ++ output, isWordText_of_mem_typeKeywords hkeyword,
        ?_, ?_, List.append_assoc _ _ _, ?_⟩
      · rw [List.append_assoc]
        exact endsWord_append_of_blank hne hgap _
      · rw [List.append_assoc]
        exact endsWord_append_of_blank hne' hgap' _
      · rw [changedAt_of_ne hother, heq, text, List.append_assoc]

/-- The next word of the changed text is that of the text, changed if it is the old name and a
double colon follows. -/
theorem Cut.exists_nextWord_iff (h : Cut before passages) (P : Text → Prop) :
    (∃ word after, NextWord (textAll (passages.map (renamed (replacing oldName newName)))) word
        after ∧ P word) ↔
      ∃ word after, NextWord (textAll passages) word after ∧
        P (changedAt oldName newName (StartsScope after) word) := by
  constructor
  · rintro ⟨word, after, ⟨gap, hne, hgap, hword, hafter, htext⟩, hP⟩
    obtain ⟨more, rfl, hmore, hcut⟩ :=
      h.exists_signs (isRenaming_replacing oldName hnew) (not_word_of_blank hgap) htext
    rcases hcut.front_cases hold hnew (not_joined_behind_blank before hne hgap) with
      ⟨-, hends⟩ | ⟨found, rest, rest', hfound, hrest, hrest', htext', hchanged⟩
    · rw [hmore] at hends
      exact absurd hends (not_endsWord_append hword after)
    · obtain ⟨rfl, -⟩ := word_append_inj hword.2 (isWordText_changedAt hnew.word hfound).2 hafter
        hrest' (hmore.symm.trans hchanged)
      exact ⟨found, rest, ⟨gap, hne, hgap, hfound, hrest, by rw [textAll_signs, htext']⟩, hP⟩
  · rintro ⟨word, after, ⟨gap, hne, hgap, hword, hafter, htext⟩, hP⟩
    obtain ⟨more, rfl, hmore, hcut⟩ :=
      h.exists_signs isRenaming_none (not_word_of_blank hgap) (by rwa [map_renamed_none])
    rw [map_renamed_none] at hmore
    rcases hcut.front_cases hold hnew (not_joined_behind_blank before hne hgap) with
      ⟨hends, -⟩ | ⟨found, rest, rest', hfound, hrest, hrest', htext', hchanged⟩
    · rw [hmore] at hends
      exact absurd hends (not_endsWord_append hword after)
    · obtain ⟨rfl, rfl⟩ := word_append_inj hfound.2 hword.2 hrest hafter
        (htext'.symm.trans hmore)
      refine ⟨_, rest', ⟨gap, hne, hgap, isWordText_changedAt hnew.word hfound, hrest', ?_⟩, hP⟩
      rw [textAll_map_renamed_signs, hchanged]

omit hold hnew

variable {first : Text} {Q : Text → Text → Prop}

theorem exists_successive_append_of_word {word rest : Text} (hbefore : outsideWord before)
    (hword : IsWordText word) (hrest : endsWord rest) :
    (∃ second after, Successive before (word ++ rest) first second after ∧ Q second after) ↔
      (first = word ∧ ∃ second after, NextWord rest second after ∧ Q second after) ∨
        ∃ second after, Successive (behind before word) rest first second after ∧
          Q second after := by
  simp only [successive_append_of_word hbefore hword hrest, or_and_right, exists_or, and_assoc,
    exists_and_left]

/-- The pairs of words that begin in a passage. -/
def Leads (passage : Passage) (rest : Text) (first : Text) (Q : Text → Text → Prop) : Prop :=
  match passage with
  | behindKeyword keyword _ name => first = keyword ∧ Q name rest ∨
      first = name ∧ ∃ second after, NextWord rest second after ∧ Q second after
  | word letters => first = letters ∧ ∃ second after, NextWord rest second after ∧ Q second after
  | beforeScope _ _ _ => False
  | sign _ => False

/-- Two words follow one another where a text begins with a passage: the first is in the passage,
or both are behind it. -/
theorem Fits.exists_successive_iff {passage : Passage} {rest : Text}
    (h : passage.Fits before rest) :
    (∃ second after, Successive before (passage.text ++ rest) first second after ∧
        Q second after) ↔
      passage.Leads rest first Q ∨
        ∃ second after, Successive (behind before passage.text) rest first second after ∧
          Q second after := by
  cases h with
  | sign hc =>
    simp only [text, Leads, List.singleton_append, successive_cons hc, false_or, behind_cons,
      behind_nil]
  | word hstart hafter hword => exact exists_successive_append_of_word hstart hword hafter
  | @beforeScope _ gap trail _ hjoined hname hgap htrail =>
    have hnone (second after : Text) :
        ¬ NextWord (gap ++ ':' :: ':' :: trail ++ rest) second after := by
      rw [List.append_assoc]
      exact not_nextWord_colon hgap
    rw [text, List.append_assoc, exists_successive_append_of_word
      (outsideWord_of_not_joined hjoined) hname.word (endsWord_scope hgap _ _)]
    simp only [Leads, hnone, false_and, exists_false, and_false, false_or, behind_append,
      successive_append_of_signs (not_word_of_scope hgap htrail)]
  | @behindKeyword keyword gap name _ hstart hafter hkeyword hne hgap hname =>
    have hletters := isWordText_of_mem_typeKeywords hkeyword
    have hbehind : outsideWord (behind (behind before keyword) gap) :=
      outsideWord_of_not_joined (not_joined_behind_blank _ hne hgap)
    have hpair : (∃ second after, (second = name ∧ after = rest) ∧ Q second after) ↔
        Q name rest := by
      constructor
      · rintro ⟨second, after, ⟨rfl, rfl⟩, hQ⟩
        exact hQ
      · exact fun hQ => ⟨name, rest, ⟨rfl, rfl⟩, hQ⟩
    simp only [text, Leads, List.append_assoc, behind_append]
    rw [exists_successive_append_of_word hstart hletters (endsWord_append_of_blank hne hgap _)]
    simp only [successive_append_of_signs (not_word_of_blank hgap),
      nextWord_iff hne hgap hname.word hafter]
    rw [exists_successive_append_of_word hbehind hname.word hafter, hpair, or_assoc]

include hold hnew

/-- The pairs of words that begin in a passage, if the first word is neither the old name nor the
new one, are changed in their second words only. -/
theorem Fits.leads_renamed {passage : Passage} (hfits : passage.Fits before (textAll passages))
    (hrest : Cut (behind before passage.text) passages) (hfirst : first ≠ oldName)
    (hfirst' : first ≠ newName) (P : Text → Prop) :
    (passage.renamed (replacing oldName newName)).Leads
        (textAll (passages.map (renamed (replacing oldName newName)))) first
        (fun second _ => P second) ↔
      passage.Leads (textAll passages) first fun second after =>
        P (changedAt oldName newName (first ∈ typeKeywords ∨ StartsScope after) second) := by
  cases hfits with
  | sign => rfl
  | beforeScope =>
    rw [renamed]
    split
    · rfl
    · rfl
  | word _ _ hword hkeyword =>
    refine and_congr_right ?_
    rintro rfl
    rw [hrest.exists_nextWord_iff hold hnew P]
    refine exists_congr fun second => exists_congr fun after => and_congr_right fun hnext => ?_
    by_cases hmem : first ∈ typeKeywords
    · -- Behind this keyword there is no name, so the second word is not the old one.
      have hother : second ≠ oldName := by
        rintro rfl
        obtain ⟨gap, hne, hgap, -, hafter, htext⟩ := hnext
        exact hkeyword hmem ⟨gap, second, after, hne, hgap, hold, hafter, htext⟩
      dsimp only
      rw [changedAt_of_ne hother, changedAt_of_ne hother]
    · simp only [hmem, false_or]
  | @behindKeyword keyword gap name _ _ _ hkeyword _ _ hname =>
    by_cases hplace : name = oldName
    · have hchanged : (Passage.behindKeyword keyword gap name).renamed
          (replacing oldName newName) = .behindKeyword keyword [' '] newName := by
        simp [renamed, replacing, hplace]
      rw [hchanged, Leads, Leads, hplace]
      simp only [hfirst, hfirst', false_and, or_false]
      refine and_congr_right ?_
      rintro rfl
      rw [changedAt, if_pos ⟨rfl, .inl hkeyword⟩]
    · have hkept : (Passage.behindKeyword keyword gap name).renamed
          (replacing oldName newName) = .behindKeyword keyword gap name := by
        simp [renamed, replacing, hplace]
      rw [hkept, Leads, Leads, changedAt_of_ne hplace]
      refine or_congr_right (and_congr_right ?_)
      rintro rfl
      rw [hrest.exists_nextWord_iff hold hnew P]
      simp only [hname.other, false_or]

/-- The pairs of words of the changed text are those of the text, if the first word is neither the
old name nor the new one. The second word is changed if it is the old name, and the first one is a
keyword or a double colon follows. -/
theorem Cut.exists_successive_iff (h : Cut before passages) (hbefore : Alike before before')
    (hfirst : first ≠ oldName) (hfirst' : first ≠ newName) (P : Text → Prop) :
    (∃ second after, Successive before' (textAll (passages.map
        (renamed (replacing oldName newName)))) first second after ∧ P second) ↔
      ∃ second after, Successive before (textAll passages) first second after ∧
        P (changedAt oldName newName (first ∈ typeKeywords ∨ StartsScope after) second) := by
  have himage := isRenaming_replacing oldName hnew
  induction h generalizing before' with
  | nil => simp [not_successive_nil]
  | @cons before passage passages hfits hrest ih =>
    have hcut := (Cut.cons hfits hrest).map_renamed himage hbefore
    have hbehind : Alike (behind before passage.text)
        (behind before' (passage.renamed (replacing oldName newName)).text) := hfits.alike himage
    rw [List.map_cons] at hcut ⊢
    cases hcut with
    | cons hfits' =>
      rw [textAll_cons, textAll_cons, hfits.exists_successive_iff, hfits'.exists_successive_iff]
      exact or_congr (hfits.leads_renamed hold hnew hrest hfirst hfirst' P) (ih hbehind)

end Passage

/-! ## Declarations -/

namespace Text

theorem isWord_of_sameFolded {k c : Char} (hk : k.toNat < 128) (hword : isWord k = true)
    (h : sameFolded k c = true) : isWord c = true := by
  have hlower {d : Char} (hd : d.toNat < 128) : isWord d.toLower = isWord d :=
    forall_ascii (P := fun d => isWord d.toLower = isWord d) (by decide) hd
  rcases sameFolded_cases hk h with ⟨hc, hsame⟩ | ⟨hextra, -⟩
  · rw [← hlower hc, hsame, hlower hk, hword]
  · exact isWord_of_isFoldedExtra hextra

theorem isWordText_of_agrees {name found : Text} (hascii : IsAscii name) (hname : IsWordText name)
    (h : Agrees name found) : IsWordText found := by
  refine ⟨fun hnil => hname.1 (List.forall₂_nil_right_iff.mp (hnil ▸ h)), ?_⟩
  obtain ⟨-, hletters⟩ := hname
  induction h with
  | nil => simp
  | cons hsame _ ih =>
    rw [IsAscii, List.forall_mem_cons] at hascii
    rw [List.forall_mem_cons] at hletters ⊢
    exact ⟨isWord_of_sameFolded hascii.1 hletters.1 hsame, ih hascii.2 hletters.2⟩

theorem agrees_refl {name : Text} (h : IsAscii name) : Agrees name name :=
  List.forall₂_same.mpr fun c hc => sameFolded_of_toLower_eq (h c hc) (h c hc) rfl

theorem isForeign_of_ascii {c : Char} (h : c.toNat < 128) : isForeign c = false := by
  simp only [isForeign, isFoldedExtra, Bool.and_eq_false_iff, Bool.or_eq_false_iff,
    beq_eq_false_iff_ne]
  omega

/-- ASCII names that agree are the same, letter case aside. -/
theorem lower_eq_of_agrees_ascii {name found : Text} (hname : IsAscii name) (hfound : IsAscii found)
    (h : Agrees name found) : lower found = lower name :=
  lower_eq_of_agrees hname h fun c hc => isForeign_of_ascii (hfound c hc)

end Text

namespace Imports

variable {name text : Text}

theorem isAscii_of_mem_headWords {word : Text} (h : word ∈ headWords) :
    IsAscii word ∧ IsWordText word := by
  have hall : headWords.all (fun word =>
      word.all (fun c => c.toNat < 128) && !word.isEmpty && word.all isWord) = true := by
    decide
  have hword := List.all_eq_true.mp hall word h
  simpa [IsAscii, IsWordText, and_assoc] using hword

theorem lower_of_mem_headWords {word : Text} (h : word ∈ headWords) :
    lower word = word ∧ word.filter isAlphanumeric = word := by
  have hall : ∀ word ∈ headWords, lower word = word ∧ word.filter isAlphanumeric = word := by
    decide
  exact hall word h

/-- Of the keywords of the rules, only `class` begins a declaration. -/
theorem mem_typeKeywords_iff_of_agrees {head : Text}
    (h : ∃ word ∈ headWords, Agrees word head) : head ∈ typeKeywords ↔ head = "class".toList := by
  have honly : ∀ keyword ∈ typeKeywords, ∀ word ∈ headWords, Agrees word keyword →
      keyword = "class".toList := by
    decide
  constructor
  · intro hmem
    obtain ⟨word, hword, hagrees⟩ := h
    exact honly head hmem word hword hagrees
  · rintro rfl
    decide

/-- A declaration is found where one of the words that begin one and the name follow one
another. -/
theorem exists_declarationAt_iff (hascii : IsAscii name) (hname : IsWordText name)
    (Q : Text → Text → Text → Prop) :
    (∃ d : DeclarationAt name text, Q d.head d.found d.after) ↔
      ∃ head, (∃ word ∈ headWords, Agrees word head) ∧ ∃ found after,
        Successive none text head found after ∧ Agrees name found ∧ Q head found after := by
  have hheads {head : Text} (h : ∃ word ∈ headWords, Agrees word head) : IsWordText head := by
    obtain ⟨word, hword, hagrees⟩ := h
    obtain ⟨hwordAscii, hletters⟩ := isAscii_of_mem_headWords hword
    exact isWordText_of_agrees hwordAscii hletters hagrees
  constructor
  · rintro ⟨d, hQ⟩
    have hhead := hheads d.isHead
    have hfound := isWordText_of_agrees hascii hname d.agrees
    have hbegins := d.begins
    have hends := d.ends
    rw [atWordEdge_iff_outsideWord (not_endsWord_append hhead _)] at hbegins
    rw [behind_append, behind_append, behind_append,
      atWordEdge_iff_endsWord (not_outsideWord_behind hfound.1 hfound.2)] at hends
    exact ⟨d.head, d.isHead, d.found, d.after, ⟨d.before, d.blanks ++ (d.found ++ d.after),
      d.text_eq, hbegins, hhead, d.blanks, d.isGap.1, d.isGap.2, hfound, hends, rfl⟩, d.agrees, hQ⟩
  · rintro ⟨head, hhead, found, after, ⟨before, rest, htext, hbegins, hletters, gap, hne, hgap,
      hfound, hends, rfl⟩, hagrees, hQ⟩
    refine ⟨⟨before, head, gap, found, after, htext, hhead, ⟨hne, hgap⟩, hagrees, ?_, ?_⟩, hQ⟩
    · exact (atWordEdge_iff_outsideWord (not_endsWord_append hletters _)).mpr hbegins
    · rw [behind_append, behind_append, behind_append]
      exact (atWordEdge_iff_endsWord (not_outsideWord_behind hfound.1 hfound.2)).mpr hends

theorem isDeclared_iff_exists_successive (hascii : IsAscii name) (hname : IsWordText name) :
    isDeclared name text = true ↔ ∃ head, (∃ word ∈ headWords, Agrees word head) ∧
      ∃ found after, Successive none text head found after ∧ Agrees name found := by
  rw [isDeclared_iff, ← exists_true_iff_nonempty,
    exists_declarationAt_iff hascii hname fun _ _ _ => True]
  simp only [and_true]

end Imports

namespace FileRename

open Imports

variable {path : Path} {plan : FileRename}

theorem isPlain_of_ofPath? (hplan : ofPath? path = some plan) (hascii : IsAscii plan.oldName)
    (hold : ∀ c ∈ plan.oldName, isWord c = true)
    (hcase : lower plan.newName ≠ lower plan.oldName) : plan.IsPlain where
  planned := ⟨path, hplan⟩
  ascii := hascii
  plain := ⟨(renamesWord hplan hold hcase).old, not_mem_typeKeywords hplan hcase⟩

namespace IsPlain

variable (h : plan.IsPlain)
include h

theorem isAscii_newName : IsAscii plan.newName := by
  intro c hc
  rw [h.newName_eq] at hc
  exact (ascii_of_mem_pascalCase h.ascii hc).1

variable {head : Text} (hheads : ∃ word ∈ headWords, Agrees word head)
include hheads

/-- The old name is none of the words that begin a declaration, whatever their letter case, if more
than letter case changes. -/
theorem ne_oldName_of_agrees (hcase : lower plan.newName ≠ lower plan.oldName) :
    head ≠ plan.oldName := by
  rintro rfl
  obtain ⟨word, hword, hagrees⟩ := hheads
  obtain ⟨hlower, hletters⟩ := lower_of_mem_headWords hword
  have hsame : lower plan.oldName = word :=
    (lower_eq_of_agrees_ascii (isAscii_of_mem_headWords hword).1 h.ascii hagrees).trans hlower
  refine hcase ?_
  rw [h.newName_eq, lower_pascalCase h.ascii, hsame, hletters]

theorem ne_newName_of_agrees (hhead : lower plan.newName ∉ headWords) : head ≠ plan.newName := by
  rintro rfl
  obtain ⟨word, hword, hagrees⟩ := hheads
  have hsame :=
    lower_eq_of_agrees_ascii (isAscii_of_mem_headWords hword).1 h.isAscii_newName hagrees
  rw [(lower_of_mem_headWords hword).1] at hsame
  exact hhead (hsame ▸ hword)

end IsPlain

/-- A declaration of the old name is left in a text by the rules of a rename exactly where they do
not look for it: where the name is spelled in another letter case, or stands behind `interface`,
`trait`, `enum` or another spelling of `class` and no double colon follows. Where they look for
it, the changed text declares the new name. The new name must be none of these words, as the rules
could make the beginning of a declaration of it. -/
theorem isDeclared_iff_exists_kept (hplan : ofPath? path = some plan)
    (hascii : IsAscii plan.oldName) (hold : ∀ c ∈ plan.oldName, isWord c = true)
    (hcase : lower plan.newName ≠ lower plan.oldName) (hhead : lower plan.newName ∉ headWords)
    (text : Text) :
    ∃ text', RenameRule.applyAll plan.rules text = .ok text' ∧
      (isDeclared plan.oldName text' = true ↔ ∃ d : DeclarationAt plan.oldName text,
        d.found ≠ plan.oldName ∨ d.head ≠ "class".toList ∧ ¬ StartsScope d.after) ∧
      ((∃ d : DeclarationAt plan.oldName text,
        d.found = plan.oldName ∧ (d.head = "class".toList ∨ StartsScope d.after)) →
          isDeclared plan.newName text' = true) := by
  have h := isPlain_of_ofPath? hplan hascii hold hcase
  have hnew := h.isTypeName_newName
  obtain ⟨passages, hcut, rfl⟩ := Passage.exists_cut none text (.inl rfl)
  have hpairs {head : Text} (hheads : ∃ word ∈ headWords, Agrees word head) (P : Text → Prop) :=
    hcut.exists_successive_iff h.plain hnew (.refl none) (h.ne_oldName_of_agrees hheads hcase)
      (h.ne_newName_of_agrees hheads hhead) P
  refine ⟨_, h.applyAll_textAll hcut, ?_, ?_⟩
  · rw [isDeclared_iff_exists_successive hascii h.plain.word,
      exists_declarationAt_iff hascii h.plain.word fun head found after =>
        found ≠ plan.oldName ∨ head ≠ "class".toList ∧ ¬ StartsScope after]
    refine exists_congr fun head => and_congr_right fun hheads => ?_
    rw [hpairs hheads (Agrees plan.oldName)]
    refine exists_congr fun found => exists_congr fun after => and_congr_right fun _ => ?_
    rw [mem_typeKeywords_iff_of_agrees hheads]
    by_cases hplace : found = plan.oldName ∧ (head = "class".toList ∨ StartsScope after)
    · -- The rules look for the name here, and the new name is another one.
      have hother : ¬ Agrees plan.oldName plan.newName := fun hagrees =>
        hcase (lower_eq_of_agrees_ascii hascii h.isAscii_newName hagrees)
      rw [changedAt, if_pos hplace]
      refine iff_of_false hother fun hkept => ?_
      tauto
    · rw [changedAt, if_neg hplace]
      tauto
  · rintro ⟨d, hfound, hplace⟩
    obtain ⟨head, hheads, found, after, hsuccessive, -, hfound, hplace⟩ :=
      (exists_declarationAt_iff hascii h.plain.word fun head found after =>
        found = plan.oldName ∧ (head = "class".toList ∨ StartsScope after)).mp ⟨d, hfound, hplace⟩
    rw [← mem_typeKeywords_iff_of_agrees hheads] at hplace
    obtain ⟨second, rest, hsecond, rfl⟩ := (hpairs hheads (· = plan.newName)).mpr
      ⟨found, after, hsuccessive, if_pos ⟨hfound, hplace⟩⟩
    exact (isDeclared_iff_exists_successive h.isAscii_newName hnew.word).mpr
      ⟨head, hheads, plan.newName, rest, hsecond, agrees_refl h.isAscii_newName⟩

theorem isDeclared_iff_exists_kept_userModel :
    ofPath? ⟨[], ["user_model.php".toList]⟩ = some userModelRename ∧
      IsAscii userModelRename.oldName ∧ (∀ c ∈ userModelRename.oldName, isWord c = true) ∧
      lower userModelRename.newName ≠ lower userModelRename.oldName ∧
      lower userModelRename.newName ∉ headWords ∧
      ∃ text', RenameRule.applyAll userModelRename.rules
          "<?php class user_model {} trait USER_MODEL {}" = .ok text' ∧
        (isDeclared userModelRename.oldName text' = true ↔
          ∃ d : DeclarationAt userModelRename.oldName
              "<?php class user_model {} trait USER_MODEL {}".toList,
            d.found ≠ userModelRename.oldName ∨
              d.head ≠ "class".toList ∧ ¬ StartsScope d.after) ∧
        ((∃ d : DeclarationAt userModelRename.oldName
              "<?php class user_model {} trait USER_MODEL {}".toList,
            d.found = userModelRename.oldName ∧
              (d.head = "class".toList ∨ StartsScope d.after)) →
          isDeclared userModelRename.newName text' = true) := by
  have hletters : ∀ c ∈ userModelRename.oldName, isWord c = true :=
    List.all_eq_true.mp (by decide)
  exact ⟨ofPath?_userModel, isPlain_userModel.ascii, hletters, by decide, by decide,
    isDeclared_iff_exists_kept ofPath?_userModel isPlain_userModel.ascii hletters (by decide)
      (by decide) _⟩

/-- An interface is declared under its old name still, while the class that implements it takes
the new one. -/
theorem not_forall_not_isDeclared :
    ¬ ∀ (path : Path) (plan : FileRename) (text text' : Text),
      ofPath? path = some plan → plan.oldName.head?.any Grammar.isNameStart = true →
        plan.oldName.all Grammar.isNameChar = true → lower plan.newName ≠ lower plan.oldName →
          RenameRule.applyAll plan.rules text = .ok text' →
            isDeclared plan.oldName text' = false := by
  intro h
  have happly : RenameRule.applyAll userModelRename.rules
      "<?php interface user_model {} class A implements user_model {}" =
        .ok "<?php interface user_model {} class A implements UserModel {}" := by
    decide +kernel
  have hdeclared : isDeclared userModelRename.oldName
      "<?php interface user_model {} class A implements UserModel {}".toList = true := by
    decide +kernel
  have hnone := h _ _ _ _ ofPath?_userModel (by decide) (by decide) (by decide) happly
  exact Bool.false_ne_true (hnone.symm.trans hdeclared)

end FileRename

end Namespacer
