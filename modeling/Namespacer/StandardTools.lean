import Namespacer.Grammar.Lexer
import Namespacer.Grammar.Statement
import Namespacer.Tools

/-!
# The tools of the program

The tools that the program comes with: a grammar of the language, five
encodings, patterns in the manner of version control systems, and the command
lines of `Arguments`.
-/

namespace Namespacer

/-- The tree of a text that the grammar does not accept. Nothing in it is known. -/
def Grammar.unreadable (text : Text) : Node :=
  .node () "ERROR" true none 0 (Text.byteSize text) []

/-- The tools that the program comes with. -/
def Tools.standard : Tools where
  parse text := (Grammar.parse? text).getD (Grammar.unreadable text)
  codec? name := (Encoding.ofName? name).map Encoding.codec
  patterns := Ignore.reader
  command := Arguments.parse

theorem Tools.parse_standard {text : Text} {root : Grammar.Node}
    (h : Grammar.parse? text = some root) : standard.parse text = root :=
  congrArg (Option.getD · (Grammar.unreadable text)) h

theorem Tools.codec?_standard {name : Text} {encoding : Encoding}
    (h : Encoding.ofName? name = some encoding) :
    standard.codec? name = some encoding.codec :=
  congrArg (Option.map Encoding.codec) h

end Namespacer
