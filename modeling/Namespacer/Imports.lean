import Namespacer.SymbolIndex
import Namespacer.Syntax.Reference
import Namespacer.Text.Pattern

/-!
# Import sets

Which names a file has to import, given the names that it refers to. Names
that the file declares itself or already imports are dropped; a bare name that
the index knows is imported by its fully qualified name, and any other name as
it is written. Letter case never tells two names apart.
-/

namespace Namespacer

/-- A candidate for an import, as a search for references delivers it. -/
inductive Candidate where
  /-- Nothing. -/
  | nothing
  /-- A name. -/
  | name (text : Text)
  /-- A reference, possibly without a name. -/
  | reference (name : Option Text)
  /-- Several candidates. -/
  | group (candidates : List Candidate)
deriving Inhabited

namespace Candidate

mutual

/-- The names of a candidate in order. Empty names are dropped. -/
def names : Candidate → List Text
  | nothing => []
  | name text => if text.isEmpty then [] else [text]
  | reference none => []
  | reference (some text) => if text.isEmpty then [] else [text]
  | group candidates => namesAll candidates

/-- The names of some candidates in order. -/
def namesAll : List Candidate → List Text
  | [] => []
  | candidate :: rest => names candidate ++ namesAll rest

end

/-- A reference found in a syntax tree as a candidate. -/
def ofReference (found : Reference) : Candidate := reference found.name

end Candidate

namespace Imports

open Pattern

/-- The names of a list without those that occurred before. -/
def dedupe (seen : List Text) : List Text → List Text
  | [] => []
  | name :: rest =>
    if seen.contains name then dedupe seen rest else name :: dedupe (name :: seen) rest

/-- A run of white space, possibly empty. -/
def blanks : Pattern := many Text.isBlank

/-- At least one blank. -/
def gap : Pattern := oneOrMore Text.isBlank

/-- A character of a qualified name. -/
def isPathChar (c : Char) : Bool := Text.isWord c || c == namespaceSeparator

/-- The start of an import: the keyword at the start of a line, and possibly a
leading separator. -/
def importStart : Pattern :=
  all [lineStart, blanks, folded "use", gap, optional (char namespaceSeparator)]

/-- An import that brings a name in, by its last segments or as an alias. -/
def importOf (name : Text) : Pattern :=
  alt
    (all [importStart, optional (seq (oneOrMore isPathChar) (char namespaceSeparator)),
      folded name, blanks, char ';'])
    (all [importStart, oneOrMore isPathChar, gap, folded "as", gap, folded name, blanks,
      char ';'])

/-- The declaration of a type with a given name. -/
def declarationOf (name : Text) : Pattern :=
  all [wordEdge,
    alt (folded "class") (alt (folded "interface") (alt (folded "trait") (folded "enum"))),
    gap, folded name, wordEdge]

/-- Whether a text already imports a name. -/
def isImported (name contents : Text) : Bool := (importOf name).occursIn contents

/-- Whether a text declares a type with a given name. -/
def isDeclared (name contents : Text) : Bool := (declarationOf name).occursIn contents

/-- Whether two names are equal up to letter case. -/
def sameName (a b : Text) : Bool := Text.lower a == Text.lower b

/-- The name under which a candidate is imported. -/
def target (index : SymbolIndex) (name : Text) : Text :=
  if isSeparated name then name else ((index.lookup? name).filter (!·.isEmpty)).getD name

/-- Whether a file has to import a name. -/
def isNeeded (file : SourceFile) (index : SymbolIndex) (name : Text) : Bool :=
  !sameName name file.typeName && !isImported name file.contents &&
    !isDeclared name file.contents && !sameName (target index name) file.qualifiedName

/-- The names that a file has to import for some candidates, in the order of
their first occurrence. -/
def resolve (candidates : List Candidate) (file : SourceFile) (index : SymbolIndex) :
    List Text :=
  ((dedupe [] (Candidate.namesAll candidates)).filter (isNeeded file index)).map (target index)

/-- The names of a list without those that occurred before in any letter case. -/
def dedupeFolded (seen : List Text) : List Text → List Text
  | [] => []
  | name :: rest =>
    let folded := Text.lower name
    if seen.contains folded then dedupeFolded seen rest
    else name :: dedupeFolded (folded :: seen) rest

/-- The first spelling of each name of a list. -/
def importSet (names : List Text) : List Text := dedupeFolded [] names

/-- The import set of a file for some candidates. -/
def resolveFile (file : SourceFile) (candidates : List Candidate) (index : SymbolIndex) :
    List Text :=
  importSet (resolve candidates file index)

end Imports

end Namespacer
