import Namespacer.Imports
import Namespacer.Syntax.Conversion
import Namespacer.Tools

/-!
# Analysis of a file

From the text of a file to its syntax tree, and from there to its imports.
-/

namespace Namespacer

/-- Whether a text consists of blanks only. -/
def Text.isBlankText (text : Text) : Bool := (Text.strip text).isEmpty

/-- The syntax tree of a text. A blank text has none. -/
def Tree.ofText (tools : Tools) (text : Text) : Option Tree :=
  if Text.isBlankText text then none
  else some (Concrete.convert text (tools.parse text).numbered)

/-- The import set of a file with a given syntax tree. -/
def analyzeTree (tree : Option Tree) (file : SourceFile) (index : SymbolIndex) : List Text :=
  Imports.resolveFile file ((Tree.references tree).map Candidate.ofReference) index

/-- The import set of a file. -/
def analyzeFile (tools : Tools) (file : SourceFile) (index : SymbolIndex) : List Text :=
  analyzeTree (Tree.ofText tools file.contents) file index

end Namespacer
