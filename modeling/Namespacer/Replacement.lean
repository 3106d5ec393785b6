import Namespacer.SourceFile
import Namespacer.Text.Quoted

/-!
# Literal replacements

Search texts with what is put in their place, applied to the contents of every
file in the order in which they are given.
-/

namespace Namespacer

/-- A literal replacement. -/
structure Replacement where
  search : Text
  replace : Text
deriving DecidableEq, Repr

namespace Replacement

/-- Applies a replacement to a text. -/
def apply (rule : Replacement) (text : Text) : Text := Text.replace rule.search rule.replace text

/-- Applies replacements one after another. -/
def applyAll (rules : List Replacement) (text : Text) : Text :=
  rules.foldl (fun text rule => rule.apply text) text

/-- Reads a replacement written as `OLD=NEW`. The search text ends at the
first equals sign and must not be empty. -/
def ofSpec? (spec : Text) : Option Replacement :=
  match Text.cut? '=' spec with
  | some (search, replace) => if search.isEmpty then none else some ⟨search, replace⟩
  | none => none

/-- The message for a replacement that cannot be read. -/
def invalidMessage (spec : Text) : Text :=
  "invalid replacement ".toList ++ Text.quoted spec ++ ", expected OLD=NEW"

end Replacement

/-- Applies replacements to the contents of files. -/
def applyReplacements (rules : List Replacement) (files : List SourceFile) : List SourceFile :=
  files.map fun file => { file with contents := Replacement.applyAll rules file.contents }

/-- The number of files whose contents differ between two versions of a
registry. -/
def changedCount (before after : List SourceFile) : Nat :=
  ((before.zip after).filter fun (old, new) => old.contents != new.contents).length

end Namespacer
