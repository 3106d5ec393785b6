import Namespacer.Proofs.ImportTargets
import Namespacer.Proofs.Matching
import Mathlib.Data.List.Nodup
import Mathlib.Data.List.TakeWhile

/-!
# The aliases that imports bind

An import binds the last segment of its name. Names reach an import set in three ways: the
index knows them, they are unknown and bare, or they are written with a separator and are
passed on as they are. Only names of the last kind can bind an alias that is taken.

* `SymbolIndex.lookup?_congr`: a built index answers names that differ in letter case only
  alike.
* `Imports.isDeclared_congr`: whether a text declares a name does not depend on its letter
  case, as long as the lower case of each letter is a single one.
* `Imports.aliases_resolveFile`: which aliases are bound once; `not_forall_bindsOnce` shows
  that not all are.
-/

namespace Namespacer

namespace Text

/-! ## Lower case -/

/-- The capital letter `İ`, whose lower case has two characters. -/
def dottedCapital : Char := Char.ofNat 0x130

theorem toNat_lowerChar_of_lt {c : Char} (h : ¬ c.toNat < 128)
    (hlower : (lowerChar c).toNat < 128) :
    (lowerChar c).toNat = 105 ∨ (lowerChar c).toNat = 107 := by
  rw [toNat_lowerChar h] at hlower ⊢
  rcases eq_of_rowImage_lowerRows_lt (by omega) hlower with hcode | hcode
  · rw [hcode]
    decide
  · rw [hcode]
    decide

theorem mem_lowerBetween_backslash {before after : Text} {c : Char} :
    '\\' ∈ lowerBetween before c after ↔ c = '\\' := by
  have hbeyond (h : ¬ c.toNat < 128) : c ≠ '\\' := by
    rintro rfl
    exact h (by decide)
  unfold lowerBetween
  split
  · rename_i hc
    rw [List.mem_singleton]
    exact forall_ascii (P := fun c => '\\' = c.toLower ↔ c = '\\') (by decide) hc
  rename_i hc
  split
  · exact iff_of_false (by decide) (hbeyond hc)
  split
  · refine iff_of_false ?_ (hbeyond hc)
    split <;> decide
  · refine iff_of_false ?_ (hbeyond hc)
    rw [List.mem_singleton]
    intro heq
    have hcode : (lowerChar c).toNat = 92 := congrArg Char.toNat heq.symm
    have := toNat_lowerChar_of_lt hc (by omega)
    omega

theorem mem_lowerFrom_backslash {before text : Text} :
    '\\' ∈ lowerFrom before text ↔ '\\' ∈ text := by
  induction text generalizing before with
  | nil => rfl
  | cons c text ih =>
    rw [lowerFrom, List.mem_append, mem_lowerBetween_backslash, ih, List.mem_cons, eq_comm]

theorem isSeparated_lower (name : Text) : isSeparated (lower name) = isSeparated name := by
  have hmem : '\\' ∈ lower name ↔ '\\' ∈ name := mem_lowerFrom_backslash
  rw [Bool.eq_iff_iff, isSeparated, isSeparated, List.contains_iff_mem, List.contains_iff_mem]
  exact hmem

/-- Names that are the same up to letter case are both separated or both bare. -/
theorem isSeparated_congr {a b : Text} (h : lower a = lower b) : isSeparated a = isSeparated b := by
  rw [← isSeparated_lower a, h, isSeparated_lower]

/-- The lower case of a letter is the single one that it is compared by, or the sigma that
ends a word. -/
theorem lowerBetween_eq_singleton {c : Char} (h : c ≠ dottedCapital) (before after : Text) :
    ∃ d, lowerBetween before c after = [d] ∧
      (d = lowerChar c ∨ (lowerChar c).toNat = 963 ∧ d.toNat = 962) := by
  unfold lowerBetween
  split
  · rename_i hc
    exact ⟨c.toLower, rfl, .inl (lowerChar_of_ascii hc).symm⟩
  rename_i hc
  split
  · rename_i hdotted
    exact absurd (Char.toNat_inj.mp hdotted) h
  split
  · rename_i hsigma
    have hlower : (lowerChar c).toNat = 963 := by
      rw [toNat_lowerChar hc, hsigma]
      decide
    refine ⟨_, rfl, ?_⟩
    split
    · exact .inr ⟨hlower, rfl⟩
    · exact .inl (Char.toNat_inj.mp hlower.symm)
  · exact ⟨lowerChar c, rfl, .inl rfl⟩

/-- The two small sigmas agree with the same letters. -/
theorem sameFolded_sigma {c d x : Char} (hc : (lowerChar c).toNat = 962 ∨ (lowerChar c).toNat = 963)
    (hd : (lowerChar d).toNat = 962 ∨ (lowerChar d).toNat = 963) (hx : sameFolded c x = true) :
    sameFolded d x = true := by
  have hletters (e : Char) (he : (lowerChar e).toNat = 962 ∨ (lowerChar e).toNat = 963) :
      sameFolded e x = true ↔ (lowerChar x).toNat = 962 ∨ (lowerChar x).toNat = 963 := by
    have hlookup : sameLetters.lookup 962 = some [963] ∧ sameLetters.lookup 963 = some [962] := by
      decide
    simp only [sameFolded, Bool.or_eq_true, beq_iff_eq, List.contains_iff_mem, ← Char.toNat_inj]
    rcases he with he | he
    · rw [he, hlookup.1]
      simp [eq_comm]
    · rw [he, hlookup.2]
      simp [eq_comm, or_comm]
  exact (hletters d hd).mpr ((hletters c hc).mp hx)

/-- Letters with the same lower case agree with the same letters. -/
theorem sameFolded_of_lowerBetween {c d x : Char} {before after before' after' : Text}
    (hc : c ≠ dottedCapital) (hd : d ≠ dottedCapital)
    (h : lowerBetween before c after = lowerBetween before' d after')
    (hx : sameFolded c x = true) : sameFolded d x = true := by
  obtain ⟨e, heq, he⟩ := lowerBetween_eq_singleton hc before after
  obtain ⟨f, hfeq, hf⟩ := lowerBetween_eq_singleton hd before' after'
  rw [heq, hfeq, List.singleton_inj] at h
  subst h
  rcases he with rfl | ⟨hsigma, he⟩
  · rcases hf with hf | ⟨hsigma, hfinal⟩
    · rw [sameFolded, ← hf]
      exact hx
    · exact sameFolded_sigma (.inl hfinal) (.inr hsigma) hx
  · rcases hf with rfl | ⟨hsigma', -⟩
    · exact sameFolded_sigma (.inr hsigma) (.inl he) hx
    · exact sameFolded_sigma (.inr hsigma) (.inr hsigma') hx

/-- Texts with the same lower case agree with the same texts, letter by letter. -/
theorem forall₂_sameFolded_of_lower {a b covered : Text} (ha : dottedCapital ∉ a)
    (hb : dottedCapital ∉ b) {before before' : Text} (h : lowerFrom before a = lowerFrom before' b)
    (hcovered : List.Forall₂ (fun k c => sameFolded k c = true) a covered) :
    List.Forall₂ (fun k c => sameFolded k c = true) b covered := by
  induction a generalizing b covered before before' with
  | nil =>
    cases b with
    | nil => exact hcovered
    | cons d b =>
      rw [List.mem_cons, not_or] at hb
      obtain ⟨f, hf, -⟩ := lowerBetween_eq_singleton (Ne.symm hb.1) before' b
      rw [lowerFrom, lowerFrom, hf] at h
      cases h
  | cons c a ih =>
    rw [List.mem_cons, not_or] at ha
    obtain ⟨e, he, -⟩ := lowerBetween_eq_singleton (Ne.symm ha.1) before a
    cases b with
    | nil =>
      rw [lowerFrom, lowerFrom, he] at h
      cases h
    | cons d b =>
      rw [List.mem_cons, not_or] at hb
      obtain ⟨f, hf, -⟩ := lowerBetween_eq_singleton (Ne.symm hb.1) before' b
      rw [lowerFrom, lowerFrom, he, hf, List.singleton_append, List.singleton_append,
        List.cons.injEq] at h
      cases hcovered with
      | cons hfirst hrest =>
        refine .cons ?_ (ih ha.2 hb.2 h.2 hrest)
        exact sameFolded_of_lowerBetween (Ne.symm ha.1) (Ne.symm hb.1) (by rw [he, hf, h.1]) hfirst

end Text

/-! ## Look-ups -/

namespace SymbolIndex

/-- No two registered names are the same up to letter case. -/
theorem nodup_register {files : List SourceFile} {symbols : List (Text × Text)}
    (h : (symbols.map fun symbol => Text.lower symbol.1).Nodup) :
    ((register files symbols).1.map fun symbol => Text.lower symbol.1).Nodup := by
  induction files generalizing symbols with
  | nil => exact h
  | cons file files ih =>
    rw [register]
    split
    · exact ih h
    split
    · exact ih h
    · rename_i hnew
      refine ih ?_
      rw [List.map_append, List.nodup_append]
      refine ⟨h, List.nodup_singleton _, ?_⟩
      intro known hknown other hother
      obtain ⟨symbol, hsymbol, rfl⟩ := List.mem_map.mp hknown
      rw [List.map_singleton, List.mem_singleton] at hother
      rw [lookupFolded?, Option.map_eq_none_iff, List.find?_eq_none] at hnew
      rw [hother]
      simpa using hnew symbol hsymbol

/-- A built index looks names up by their lower case. -/
theorem lookup?_build (files : List SourceFile) (name : Text) :
    (build files).1.lookup? name = lookupFolded? (build files).1.symbols name := by
  rw [lookup?, Option.orElse_eq_orElse, Option.orElse_eq_or]
  cases hexact : ((build files).1.symbols.lookup name).filter (!·.isEmpty) with
  | none => rfl
  | some qualified =>
    rw [Option.filter_eq_some_iff] at hexact
    obtain ⟨before, after, hsymbols, -⟩ := List.lookup_eq_some_iff.mp hexact.1
    have hmem : (name, qualified) ∈ (build files).1.symbols := by simp [hsymbols]
    have hisSome : ((build files).1.symbols.find? fun entry =>
        Text.lower entry.1 == Text.lower name).isSome = true :=
      List.find?_isSome.mpr ⟨_, hmem, beq_self_eq_true _⟩
    obtain ⟨found, hfind⟩ := Option.isSome_iff_exists.mp hisSome
    -- The entry that is found has the same lower case, so it is the one with the exact name.
    have hfound := List.find?_some hfind
    have hlower : Text.lower found.1 = Text.lower name := beq_iff_eq.mp hfound
    have hnodup := @nodup_register files [] List.nodup_nil
    have hsame := List.inj_on_of_nodup_map hnodup (List.mem_of_find?_eq_some hfind) hmem hlower
    rw [Option.some_or, lookupFolded?]
    exact (Option.map_eq_some_iff.mpr ⟨found, hfind, congrArg Prod.snd hsame⟩).symm

/-- A built index answers names that are the same up to letter case alike. -/
theorem lookup?_congr (files : List SourceFile) {a b : Text} (h : Text.lower a = Text.lower b) :
    (build files).1.lookup? a = (build files).1.lookup? b := by
  rw [lookup?_build, lookup?_build, lookupFolded?, lookupFolded?, h]

end SymbolIndex

/-! ## Last segments -/

theorem forall_ne_of_bare {name : Text} (h : isSeparated name = false) :
    ∀ c ∈ name.reverse, (c != namespaceSeparator) = true := by
  intro c hc
  rw [bne_iff_ne]
  rintro rfl
  have hmem := List.contains_iff_mem.mpr (List.mem_reverse.mp hc)
  exact absurd (h.symm.trans hmem) Bool.false_ne_true

theorem lastSegment_of_bare {name : Text} (h : isSeparated name = false) :
    lastSegment name = name := by
  rw [lastSegment, Text.afterLast, List.takeWhile_eq_self_iff.mpr (forall_ne_of_bare h),
    List.reverse_reverse]

theorem lastSegment_append {space name : Text} (h : isSeparated name = false) :
    lastSegment (space ++ namespaceSeparator :: name) = name := by
  rw [lastSegment, Text.afterLast, List.reverse_append, List.reverse_cons, List.append_assoc,
    List.takeWhile_append_of_pos (forall_ne_of_bare h)]
  simp

namespace Imports

open Pattern

/-- The last segment of the target of a bare name is the name up to letter case. -/
theorem lower_lastSegment_target (files : List SourceFile) {name : Text}
    (h : isSeparated name = false) :
    Text.lower (lastSegment (target (SymbolIndex.build files).1 name)) = Text.lower name := by
  rcases target_cases files name with htarget | ⟨file, -, space, -, htarget, hlower⟩
  · rw [htarget, lastSegment_of_bare h]
  · rw [htarget, lastSegment_append ((Text.isSeparated_congr hlower).trans h), hlower]

/-- Bare names that are the same up to letter case have targets that are. -/
theorem lower_target_congr (files : List SourceFile) {a b : Text} (ha : isSeparated a = false)
    (h : Text.lower a = Text.lower b) :
    Text.lower (target (SymbolIndex.build files).1 a) =
      Text.lower (target (SymbolIndex.build files).1 b) := by
  have hb : isSeparated b = false := (Text.isSeparated_congr h).symm.trans ha
  rw [target, target, if_neg (by simp [ha]), if_neg (by simp [hb]),
    SymbolIndex.lookup?_congr files h]
  cases ((SymbolIndex.build files).1.lookup? b).filter (!·.isEmpty) with
  | none => exact h
  | some qualified => rfl

/-- An import set holds no name twice, in whatever letter case. -/
theorem pairwise_dedupeFolded (seen names : List Text) :
    (dedupeFolded seen names).Pairwise (fun a b => Text.lower a ≠ Text.lower b) ∧
      ∀ name ∈ dedupeFolded seen names, Text.lower name ∉ seen := by
  induction names generalizing seen with
  | nil => exact ⟨List.Pairwise.nil, by simp [dedupeFolded]⟩
  | cons first names ih =>
    rw [dedupeFolded]
    split
    · exact ih seen
    · rename_i hseen
      rw [List.contains_iff_mem] at hseen
      obtain ⟨hpairs, hnew⟩ := ih (Text.lower first :: seen)
      refine ⟨List.pairwise_cons.mpr ⟨fun name hname heq => ?_, hpairs⟩, ?_⟩
      · exact hnew name hname (heq ▸ List.mem_cons_self)
      · intro name hname
        rcases List.mem_cons.mp hname with rfl | hname
        · exact hseen
        · exact fun hmem => hnew name hname (List.mem_cons_of_mem _ hmem)

/-- Whether a text declares a name does not depend on its letter case. -/
theorem isDeclared_congr {a b contents : Text} (ha : Text.dottedCapital ∉ a)
    (hb : Text.dottedCapital ∉ b) (h : Text.lower a = Text.lower b)
    (hdeclared : isDeclared a contents = true) : isDeclared b contents = true := by
  rw [isDeclared, occursIn_iff] at hdeclared ⊢
  obtain ⟨skipped, covered, after, rfl, hcovers⟩ := hdeclared
  refine ⟨skipped, covered, after, rfl, ?_⟩
  rw [declarationOf] at hcovers ⊢
  simp only [covers_all_cons] at hcovers ⊢
  obtain ⟨u, _, rfl, hedge, v, _, rfl, hword, w, _, rfl, hgap, x, y, rfl, hname, hend⟩ := hcovers
  refine ⟨u, _, rfl, hedge, v, _, rfl, hword, w, _, rfl, hgap, x, y, rfl, ?_, hend⟩
  rw [covers_folded] at hname ⊢
  exact Text.forall₂_sameFolded_of_lower ha hb h hname

/-! ## Aliases -/

/-- Whether imports bind no alias twice, and none that their file takes itself. -/
structure BindsOnce (file : SourceFile) (imports : List Text) : Prop where
  distinct : imports.Pairwise fun a b => sameName (lastSegment a) (lastSegment b) = false
  other : file.isTemplate = false → ∀ a ∈ imports, sameName (lastSegment a) file.typeName = false
  undeclared : ∀ a ∈ imports, ∀ name, isDeclared name file.contents = true →
    sameName (lastSegment a) name = false

/-- Two qualified names with the same last segment bind it twice. -/
theorem not_forall_bindsOnce :
    ¬ ∀ (files : List SourceFile), ∀ file ∈ files, ∀ candidates : List Candidate,
      BindsOnce file (resolveFile file candidates (SymbolIndex.build files).1) := by
  intro h
  let page := SourceFile.ofPath (Path.ofText "Page.php") []
  have hpage := h [page] page List.mem_cons_self
    [.name "Site\\Row".toList, .name "Shop\\Row".toList]
  exact absurd hpage.distinct (by decide)

/-- Whether a name is a candidate that is written with a separator. -/
def isWrittenOut (candidates : List Candidate) (name : Text) : Bool :=
  isSeparated name && (Candidate.namesAll candidates).contains name

/-- An import that is not written out stands for a bare name that is needed. -/
theorem exists_bare_of_mem {files : List SourceFile} {file : SourceFile}
    {candidates : List Candidate} {a : Text}
    (h : a ∈ resolveFile file candidates (SymbolIndex.build files).1)
    (hout : isWrittenOut candidates a = false) :
    ∃ name ∈ Candidate.namesAll candidates, isSeparated name = false ∧
      isNeeded file (SymbolIndex.build files).1 name = true ∧
        target (SymbolIndex.build files).1 name = a ∧
          Text.lower (lastSegment a) = Text.lower name := by
  obtain ⟨name, hname, hneeded, rfl⟩ := mem_resolveFile h
  cases hseparated : isSeparated name with
  | false =>
    exact ⟨name, hname, hseparated, hneeded, rfl, lower_lastSegment_target files hseparated⟩
  | true =>
    have htarget : target (SymbolIndex.build files).1 name = name := by
      rw [target, if_pos hseparated]
    rw [htarget, isWrittenOut, hseparated, List.contains_iff_mem.mpr hname] at hout
    cases hout

/-- Imports are different names in whatever letter case. Two of them bind the same alias
only if one is written out. One that is not binds the bare name that it stands for, which
is neither the type of the file nor a type that the file declares. -/
theorem aliases_resolveFile (files : List SourceFile) (file : SourceFile)
    (candidates : List Candidate) :
    (resolveFile file candidates (SymbolIndex.build files).1).Pairwise (fun a b =>
        sameName a b = false ∧
          (sameName (lastSegment a) (lastSegment b) = true →
            isWrittenOut candidates a = true ∨ isWrittenOut candidates b = true)) ∧
      ∀ a ∈ resolveFile file candidates (SymbolIndex.build files).1,
        isWrittenOut candidates a = false →
          ∃ name ∈ Candidate.namesAll candidates, isSeparated name = false ∧
            target (SymbolIndex.build files).1 name = a ∧ sameName (lastSegment a) name = true ∧
            sameName (lastSegment a) file.typeName = false ∧
            ∀ declared, isDeclared declared file.contents = true →
              sameName (lastSegment a) declared = true →
                Text.dottedCapital ∈ name ∨ Text.dottedCapital ∈ declared := by
  constructor
  · refine (pairwise_dedupeFolded [] _).1.imp_of_mem ?_
    intro a b ha hb hne
    refine ⟨beq_eq_false_iff_ne.mpr hne, fun halias => ?_⟩
    by_contra hout
    rw [not_or, Bool.not_eq_true, Bool.not_eq_true] at hout
    -- Two bare names with the same alias have one target.
    obtain ⟨name, -, hbare, -, rfl, hname⟩ := exists_bare_of_mem ha hout.1
    obtain ⟨other, -, -, -, rfl, hother⟩ := exists_bare_of_mem hb hout.2
    have hsame : Text.lower name = Text.lower other := by
      rw [← hname, ← hother]
      exact beq_iff_eq.mp halias
    exact hne (lower_target_congr files hbare hsame)
  · intro a ha hout
    obtain ⟨name, hmem, hbare, hneeded, htarget, hname⟩ := exists_bare_of_mem ha hout
    simp only [isNeeded, Bool.and_eq_true, Bool.not_eq_true'] at hneeded
    obtain ⟨⟨⟨hself, -⟩, hundeclared⟩, -⟩ := hneeded
    refine ⟨name, hmem, hbare, htarget, beq_iff_eq.mpr hname, ?_, ?_⟩
    · rw [sameName, hname]
      exact hself
    · intro declared hdeclared hsame
      by_contra hplain
      rw [not_or] at hplain
      have hlower : Text.lower declared = Text.lower name :=
        (beq_iff_eq.mp hsame).symm.trans hname
      have hagain := isDeclared_congr hplain.2 hplain.1 hlower hdeclared
      exact absurd (hundeclared.symm.trans hagain) Bool.false_ne_true

-- The exception is needed: the two names are the same in lower case, but differ in length.
example : sameName "\u0130d".toList "i\u0307d".toList = true ∧
    isDeclared "i\u0307d".toList "class i\u0307d {}".toList = true ∧
      isDeclared "\u0130d".toList "class i\u0307d {}".toList = false := by
  decide +kernel

end Imports

end Namespacer
