import Namespacer.PascalCase
import Namespacer.SourceFile
import Namespacer.Text.Pattern
import Namespacer.Text.Template

/-!
# Renaming types

A file whose name is not in PascalCase is renamed, and with it the type that
it declares. Four rules carry the new name into texts: class declarations,
inheritance clauses, object creations and static look-ups.
-/

namespace Namespacer

/-- A file that is to be renamed. -/
structure FileRename where
  oldPath : Path
  newPath : Path
  oldName : Text
  newName : Text
deriving DecidableEq, Repr

/-- A rule that changes texts. -/
structure RenameRule where
  pattern : Pattern
  /-- Whether the first word of a match can be referred to as its part one. -/
  keepsKeyword : Bool
  template : Text

namespace RenameRule

/-- The numbered parts of a match. -/
def parts (rule : RenameRule) (covered : Text) (number : Nat) : Text :=
  if number = 1 && rule.keepsKeyword then covered.takeWhile Text.isWord else covered

/-- Applies a rule to a text. -/
def apply (rule : RenameRule) (text : Text) : Except TemplateFault Text := do
  let pieces ← Template.parse (if rule.keepsKeyword then 1 else 0) rule.template
  pure (rule.pattern.replaceAll (fun covered => Template.expand pieces (rule.parts covered)) text)

/-- Applies rules one after another. -/
def applyAll : List RenameRule → Text → Except TemplateFault Text
  | [], text => .ok text
  | rule :: rules, text => do applyAll rules (← rule.apply text)

end RenameRule

open Pattern in
/-- The rules that change declarations and uses of a renamed type. -/
def renameRules (oldName newName : Text) : List RenameRule :=
  let gap := oneOrMore Text.isBlank
  let blanks := many Text.isBlank
  let old := literal oldName
  let isJoined := fun c => Text.isWord c || c == '$' || c == '\\' || c == '>'
  [ ⟨all [wordEdge, literal "class", gap, old, wordEdge], true, "\\1 " ++ newName⟩,
    ⟨all [wordEdge, alt (literal "extends") (literal "implements"), gap, old, wordEdge], true,
      "\\1 " ++ newName⟩,
    ⟨all [wordEdge, literal "new", gap, old, wordEdge], false, "new " ++ newName⟩,
    ⟨all [notAfter isJoined, old, blanks, literal "::", blanks], false, newName ++ "::"⟩ ]

namespace FileRename

/-- The rules that carry a rename into texts. -/
def rules (rename : FileRename) : List RenameRule := renameRules rename.oldName rename.newName

/-- The rename of a file at a path, if its name is not in PascalCase and has a
PascalCase form. -/
def ofPath? (path : Path) : Option FileRename :=
  let oldName := path.stem
  let newName := pascalCase oldName
  if isPascalCase oldName || newName.isEmpty then none
  else some ⟨path, path.withName (newName ++ path.suffix), oldName, newName⟩

/-- The renames of some files, in their order. -/
def plan (files : List SourceFile) : List FileRename :=
  files.filterMap fun file => ofPath? file.path

end FileRename

end Namespacer
