import Namespacer.Text.Basic

/-!
# Blanks and lines

Which characters are blank, which of them end a line, and the two
operations that rest on this: stripping a text and cutting it into lines.
-/

namespace Namespacer.Text

/-- Whether a character is white space. The four ASCII information
separators count as white space. -/
def isBlank (c : Char) : Bool :=
  let n := c.toNat
  if n < 128 then (9 ≤ n && n ≤ 13) || (28 ≤ n && n ≤ 32)
  else
    n == 0x85 || n == 0xA0 || n == 0x1680 || (0x2000 ≤ n && n ≤ 0x200A) || n == 0x2028 ||
      n == 0x2029 || n == 0x202F || n == 0x205F || n == 0x3000

/-- Drops the blanks at both ends. -/
def strip (text : Text) : Text := dropEndWhile isBlank (text.dropWhile isBlank)

/-- Whether a character ends a line. -/
def isLineBreak (c : Char) : Bool :=
  let n := c.toNat
  (10 ≤ n && n ≤ 13) || (28 ≤ n && n ≤ 30) || n == 0x85 || n == 0x2028 || n == 0x2029

/-- The lines of a text, given the reversed beginning of the first one. -/
def linesFrom (line : Text) : Text → List Text
  | [] => if line.isEmpty then [] else [line.reverse]
  | '\r' :: '\n' :: text => line.reverse :: linesFrom [] text
  | c :: text =>
    if isLineBreak c then line.reverse :: linesFrom [] text else linesFrom (c :: line) text

/-- The lines of a text without their ends. A carriage return and the line
feed after it are one end, and nothing follows the last end. -/
def lines (text : Text) : List Text := linesFrom [] text

/-- Writes every line end that begins with a carriage return as a line feed. -/
def unifyNewlines : Text → Text
  | [] => []
  | '\r' :: '\n' :: text => '\n' :: unifyNewlines text
  | c :: text => (if c = '\r' then '\n' else c) :: unifyNewlines text

end Namespacer.Text
