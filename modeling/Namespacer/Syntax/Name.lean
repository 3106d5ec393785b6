import Namespacer.Text.Blank
import Namespacer.Text.LetterCase

/-!
# Type names

A type name as it is written at a position that takes a type, together with
the way it is qualified there.
-/

namespace Namespacer

/-- The character between the segments of a qualified name. -/
def namespaceSeparator : Char := '\\'

/-- How a name is qualified where it is written. -/
inductive Resolution where
  /-- A single segment. -/
  | unqualified
  /-- Several segments, without a leading separator. -/
  | qualified
  /-- With a leading separator. -/
  | fullyQualified
  /-- Relative to the current namespace. -/
  | relative
deriving DecidableEq, Repr

/-- A type name. `text` never carries the leading separator; whether one was
written is kept in `resolution`. -/
structure Name where
  text : Text
  resolution : Resolution := .unqualified
deriving DecidableEq, Repr

/-- Whether a text holds a namespace separator. -/
def isSeparated (text : Text) : Bool := text.contains namespaceSeparator

/-- Reads a name from its spelling. -/
def Name.ofText (spelling : Text) : Name :=
  let text := Text.strip spelling
  if text.head? = some namespaceSeparator then
    ⟨text.dropWhile (· == namespaceSeparator), .fullyQualified⟩
  else if Text.startsWith (Text.lower text) "namespace\\" then
    ⟨(text.dropWhile (· != namespaceSeparator)).drop 1, .relative⟩
  else if isSeparated text then ⟨text, .qualified⟩
  else ⟨text, .unqualified⟩

/-- The last segment of a name. -/
def lastSegment (name : Text) : Text := Text.afterLast namespaceSeparator name

end Namespacer
