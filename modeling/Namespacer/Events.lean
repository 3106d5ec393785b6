import Namespacer.Log
import Namespacer.SymbolIndex
import Namespacer.Syntax.Reference

/-!
# What is logged

The events that the steps of a migration log. Everything that a person may
have to look at is a warning, the rest tells how far a migration has come.
-/

namespace Namespacer.LogEvent

/-- A field with a text. -/
def textField (key : String) (text : Text) : Text × Json := (key.toList, Json.ofText text)

/-- A field with a number. -/
def countField (key : String) (count : Nat) : Text × Json := (key.toList, Json.int count)

/-- A fully qualified name that is imported by its bare name. -/
def fullyQualifiedReference (name : Text) (context : Context) : LogEvent :=
  ⟨.warning, "fully_qualified_reference",
    [textField "name" name, textField "context" context.label]⟩

/-- The fully qualified names in a syntax tree. -/
def reviews (tree : Option Tree) : List LogEvent :=
  (Tree.reviewed tree).map fun (name, context) => fullyQualifiedReference name context

/-- A type that lost its name to an earlier file. -/
def duplicateTypeName (duplicate : DuplicateType) : LogEvent :=
  ⟨.warning, "duplicate_type_name",
    [textField "name" duplicate.name, textField "kept" duplicate.kept,
      textField "ignored" duplicate.ignored, textField "path" duplicate.path]⟩

/-- A rename that was left out because there is something in its place. -/
def renameTargetExists (path target : Text) : LogEvent :=
  ⟨.warning, "rename_target_exists", [textField "path" path, textField "target" target]⟩

/-- A class file without an open tag. -/
def missingOpenTag (path : Text) : LogEvent :=
  ⟨.warning, "missing_open_tag", [textField "path" path]⟩

/-- The manifest has a new autoload map. -/
def autoloadUpdated (prefixes : Nat) : LogEvent :=
  ⟨.info, "composer_autoload_updated", [countField "prefixes" prefixes]⟩

/-- All folders have been renamed. -/
def foldersRenamed (count : Nat) : LogEvent :=
  ⟨.info, "folders_renamed", [countField "count" count]⟩

/-- All files have been renamed. -/
def filesRenamed (count files : Nat) : LogEvent :=
  ⟨.info, "files_renamed", [countField "count" count, countField "files" files]⟩

/-- All files have been written. -/
def filesWritten (count : Nat) : LogEvent :=
  ⟨.info, "files_written", [countField "count" count]⟩

end Namespacer.LogEvent
