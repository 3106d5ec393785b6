import Namespacer.Arguments
import Namespacer.Ignore
import Namespacer.Syntax.Concrete
import Namespacer.Text.Encoding

/-!
# Tools

What a migration does not do by itself: reading a program by the grammar of its
language, writing texts in an encoding, matching paths against patterns, and
reading a command line. Nothing here says how these tools work. Every step that
needs one is given the tools as its first argument, and what is known of a step
is known whatever tools it is given.
-/

namespace Namespacer

/-- The tools of a migration. -/
structure Tools where
  /-- The concrete tree of a program. There is one for every text. -/
  parse : Text → Concrete Unit
  /-- The encoding with a name. -/
  codec? : Text → Option Codec
  /-- What lines of patterns match. -/
  patterns : PatternReader
  /-- The command line that some arguments make. -/
  command : List Text → Except UsageFault Invocation

end Namespacer
