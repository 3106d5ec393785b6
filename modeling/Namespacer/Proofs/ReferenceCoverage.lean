import Mathlib.Data.List.DropRight
import Namespacer.Proofs.StatementReaders
import Namespacer.Proofs.StackConversion

/-!
# Every type operand is reported

The references of a text are read from the syntax tree of its concrete tree.
The type operand of a node is among them unless the node lies at a hidden
position.

* `mem_references_of_reaches`: the name of every type operand that is reached
  without entering a hidden position is among the references.
* `not_forall_mem_references`: avoiding the subjects of type tests alone is not
  enough.
-/

namespace Namespacer

variable {tools : Tools}

/-! ## Blank texts -/

namespace Text

theorem strip_eq_nil_iff {text : Text} : strip text = [] ↔ ∀ c ∈ text, isBlank c = true := by
  have hright (l : Text) : dropEndWhile isBlank l = [] ↔ ∀ c ∈ l, isBlank c = true := by
    simp [dropEndWhile]
  rw [strip, hright]
  constructor
  · intro h c hc
    rw [← List.takeWhile_append_dropWhile (p := isBlank) (l := text), List.mem_append] at hc
    exact hc.elim List.mem_takeWhile_imp (h c)
  · intro h c hc
    exact h c ((List.dropWhile_sublist _).subset hc)

theorem strip_strip (text : Text) : strip (strip text) = strip text := by
  have hdrop : (strip text).dropWhile isBlank = strip text := by
    rw [List.dropWhile_eq_self_iff]
    intro hlength
    -- What is left begins where the text without its leading blanks begins.
    have hbegin : strip text <+: text.dropWhile isBlank := List.rdropWhile_prefix isBlank _
    have hfirst := List.dropWhile_get_zero_not isBlank text (Nat.lt_of_lt_of_le hlength hbegin.length_le)
    rw [hbegin.getElem hlength]
    exact hfirst
  rw [strip, hdrop]
  exact List.rdropWhile_idempotent isBlank _

theorem mem_of_mem_takeBytes {c : Char} {bytes : Nat} {text : Text} (h : c ∈ takeBytes bytes text) :
    c ∈ text := by
  induction text generalizing bytes with
  | nil => simp [takeBytes] at h
  | cons d text ih =>
    rw [takeBytes] at h
    split at h
    · cases h
    · rcases List.mem_cons.mp h with rfl | h
      · exact List.mem_cons_self
      · exact List.mem_cons_of_mem d (ih h)

theorem mem_of_mem_dropBytes {c : Char} {bytes : Nat} {text : Text} (h : c ∈ dropBytes bytes text) :
    c ∈ text := by
  induction text generalizing bytes with
  | nil => simp [dropBytes] at h
  | cons d text ih =>
    rw [dropBytes] at h
    split at h
    · exact h
    · exact List.mem_cons_of_mem d (ih h)

end Text

/-- A text of blanks alone has no name. -/
theorem Name.ofText_of_strip_eq_nil {text : Text} (h : Text.strip text = []) :
    (Name.ofText text).text = [] := by
  rw [Name.ofText, h]
  rfl

theorem Name.ofText_strip (text : Text) : Name.ofText (Text.strip text) = Name.ofText text := by
  rw [Name.ofText, Name.ofText, Text.strip_strip]

namespace Concrete

variable {source : Text} {n : Grammar.Node}

/-- The name of a name node that is not blank and no reserved word. -/
theorem name?_eq_some (hkind : isNameKind n.kind = true)
    (hreserved : nonClassNames.contains (Text.lower (Text.strip (n.text source))) = false)
    (hname : (Name.ofText (n.text source)).text ≠ []) :
    n.name? source = some (Name.ofText (n.text source)) := by
  have hstrip : Text.strip (n.text source) ≠ [] := fun h => hname (Name.ofText_of_strip_eq_nil h)
  simp only [name?, hkind, if_true, hreserved, Bool.or_false, List.isEmpty_iff, hstrip, if_false,
    Name.ofText_strip]

/-- A node with a name covers a part of a text that is not blank. -/
theorem isBlankText_eq_false (hname : (Name.ofText (n.text source)).text ≠ []) :
    Text.isBlankText source = false := by
  rw [Text.isBlankText, List.isEmpty_eq_false_iff]
  intro hblank
  apply hname
  apply Name.ofText_of_strip_eq_nil
  rw [Text.strip_eq_nil_iff] at hblank ⊢
  intro c hc
  exact hblank c (Text.mem_of_mem_dropBytes (Text.mem_of_mem_takeBytes hc))

end Concrete

/-! ## References -/

open Concrete

theorem references_ofText {text : Text} (hblank : Text.isBlankText text = false) :
    Tree.references (Tree.ofText tools text) =
      ((tools.parse text).toTree text).mentions.map Mention.reference := by
  rw [Tree.ofText, hblank]
  simp [Tree.references, convert_numbered, Tree.collect_eq_mentions]

/-- The name of every type operand that is reached without entering a hidden position is among the
references of the text, whoever parsed the text, if the tree follows the grammar. -/
theorem mem_references_of_reaches {text : Text} {m operand : Concrete Unit} {context : Context}
    (hgrammar : FollowsGrammar (tools.parse text))
    (hreach : Reaches (Hidden text) (tools.parse text) m)
    (hoperand : m.typeOperand? text = some (operand, context))
    (hkind : isNameKind operand.kind = true)
    (hreserved : nonClassNames.contains (Text.lower (Text.strip (operand.text text))) = false)
    (hname : (Name.ofText (operand.text text)).text ≠ []) :
    ⟨some (Name.ofText (operand.text text)).text, context⟩ ∈
      Tree.references (Tree.ofText tools text) := by
  have hmention :=
    hgrammar.sound.mem_mentions hreach hoperand (name?_eq_some hkind hreserved hname)
  rw [references_ofText (isBlankText_eq_false hname)]
  refine List.mem_map.mpr ⟨_, hmention, ?_⟩
  simp [Mention.reference, hname]

/-- The type operand of the node at the end of a path in the tree of a text: its
name, whether it names a class, and its context. -/
def operandAt? (text : Text) (allowed : Concrete Unit → Bool) (path : List Nat) :
    Option (Name × Bool × Context) :=
  (follow? allowed path (Tools.standard.parse text)).bind fun m =>
    (m.typeOperand? text).map fun found =>
      (Name.ofText (found.1.text text), isNameKind found.1.kind &&
        !nonClassNames.contains (Text.lower (Text.strip (found.1.text text))), found.2)

theorem exists_of_operandAt? {text : Text} {allowed : Concrete Unit → Bool}
    {avoided : Concrete Unit → Concrete Unit → Prop}
    (hallowed : ∀ n c, allowed n = true → ¬ avoided n c) {path : List Nat} {name : Name}
    {context : Context} (h : operandAt? text allowed path = some (name, true, context)) :
    ∃ m operand : Concrete Unit, Reaches avoided (Tools.standard.parse text) m ∧
      m.typeOperand? text = some (operand, context) ∧ isNameKind operand.kind = true ∧
      nonClassNames.contains (Text.lower (Text.strip (operand.text text))) = false ∧
      Name.ofText (operand.text text) = name := by
  obtain ⟨m, hm, h⟩ := Option.bind_eq_some_iff.mp h
  obtain ⟨⟨operand, context'⟩, hoperand, heq⟩ := Option.map_eq_some_iff.mp h
  simp only [Prod.mk.injEq, Bool.and_eq_true, Bool.not_eq_true'] at heq
  obtain ⟨hname, ⟨hkind, hreserved⟩, rfl⟩ := heq
  exact ⟨m, operand, reaches_of_follow? hallowed hm, hoperand, hkind, hreserved, hname⟩

theorem mem_references_of_returned_creation :
    (⟨some "Page".toList, .created⟩ : Reference) ∈
      Tree.references (Tree.ofText .standard "<?php return new Page;".toList) := by
  have hfound : operandAt? "<?php return new Page;".toList hidesNothing [1, 0] =
      some (⟨"Page".toList, .unqualified⟩, true, .created) := by decide +kernel
  generalize "<?php return new Page;".toList = text at hfound ⊢
  obtain ⟨m, operand, hreach, hoperand, hkind, hreserved, hname⟩ :=
    exists_of_operandAt? not_hidden_of_hidesNothing hfound
  have hmem := mem_references_of_reaches (Grammar.follows_standard text) hreach hoperand hkind
    hreserved (by rw [hname]; decide)
  rwa [hname] at hmem

/-- Avoiding nothing but the subjects of type tests is not enough: the default
value of a parameter is not looked at. -/
theorem not_forall_mem_references : ¬ ∀ (text : Text) (m operand : Concrete Unit)
    (context : Context), Reaches (IsSubject text) (Tools.standard.parse text) m →
      m.typeOperand? text = some (operand, context) → isNameKind operand.kind = true →
      nonClassNames.contains (Text.lower (Text.strip (operand.text text))) = false →
      ∃ reference ∈ Tree.references (Tree.ofText .standard text),
        reference.name = some (Name.ofText (operand.text text)).text := by
  intro hall
  have hfound : operandAt? "<?php function f($a = Foo::BAR) {}".toList
      (testsNoType "<?php function f($a = Foo::BAR) {}".toList) [1, 1, 0, 1] =
      some (⟨"Foo".toList, .unqualified⟩, true, .staticLookup) := by decide +kernel
  have hnone : Tree.references (Tree.ofText .standard "<?php function f($a = Foo::BAR) {}".toList) =
      [] := by
    decide +kernel
  generalize "<?php function f($a = Foo::BAR) {}".toList = text at hfound hnone
  obtain ⟨m, operand, hreach, hoperand, hkind, hreserved, -⟩ :=
    exists_of_operandAt? not_isSubject_of_testsNoType hfound
  obtain ⟨reference, hmem, -⟩ :=
    hall text m operand .staticLookup hreach hoperand hkind hreserved
  rw [hnone] at hmem
  cases hmem

end Namespacer
