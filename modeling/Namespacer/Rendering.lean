import Namespacer.SourceFile
import Namespacer.Text.Pattern

/-!
# Rendering

The text of a file with its namespace and imports written into it. A class
file gets them in place of its first open tag. A template gets its imports
only, and only if it has some: in place of an open tag in its first line that
is not blank, or else in a block of their own before everything.
-/

namespace Namespacer

open Pattern

/-- An open tag: the long one, or a short one that is not an echo tag. -/
def openTag : Pattern :=
  all [literal "<?", optional (seq (folded "php") wordEdge), notBefore (· == '=')]

/-- A line for each import. -/
def useBlock (imports : List Text) : Text :=
  imports.flatMap fun name => "use ".toList ++ name ++ ";\n"

/-- The start of a rendered file. -/
def phpHeader : Text := "<?php\n\n"

/-- Puts a text in place of the first open tag, if there is one. -/
def replaceOpenTag (header contents : Text) : Option Text :=
  (openTag.first? contents).map fun (before, _, after) => before ++ header ++ after

/-- What is written in place of the open tag of a class file. -/
def classHeader (file : SourceFile) : Text :=
  phpHeader ++
    (match file.properNamespace? with
      | some name => "namespace ".toList ++ name ++ ";\n\n"
      | none => []) ++
    useBlock file.imports

/-- The first line of a text that is not blank; empty if there is none. -/
def firstLine (contents : Text) : Text :=
  ((Text.lines contents).find? fun line => !(Text.strip line).isEmpty).getD []

/-- The rendered text of a template. -/
def renderTemplate (file : SourceFile) : Option Text :=
  if file.imports.isEmpty then none
  else
    let header := phpHeader ++ useBlock file.imports
    if openTag.occursIn (firstLine file.contents) then replaceOpenTag header file.contents
    else some (header ++ "\n?>\n\n" ++ file.contents)

/-- The new text of a file; nothing if the file is to be left as it is. -/
def SourceFile.render (file : SourceFile) : Option Text :=
  if file.isTemplate then renderTemplate file
  else replaceOpenTag (classHeader file) file.contents

/-- Whether a file cannot be rendered because it has no open tag. -/
def SourceFile.lacksOpenTag (file : SourceFile) : Bool :=
  !file.isTemplate && !openTag.occursIn file.contents

end Namespacer
