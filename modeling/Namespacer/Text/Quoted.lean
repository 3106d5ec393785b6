import Namespacer.Text.Printable

/-!
# Quoted texts

A text as it is shown inside a message: between quotes, with everything
that cannot be printed as itself written as an escape. Texts are given by
their code points, so that surrogates, which no `Char` can be, have a shown
form too.
-/

namespace Namespacer.Text

/-- A hexadecimal digit, in lower case. -/
def hexDigit (n : Nat) : Char :=
  if n < 10 then Char.ofNat (48 + n) else Char.ofNat (87 + n)

/-- The last `width` hexadecimal digits of a number. -/
def hex : (width : Nat) → Nat → Text
  | 0, _ => []
  | width + 1, n => hex width (n / 16) ++ [hexDigit (n % 16)]

/-- A code point as an escape of two, four or eight hexadecimal digits,
whichever is the first to hold it. -/
def hexEscape (code : Nat) : Text :=
  if code < 0x100 then "\\x" ++ hex 2 code
  else if code < 0x10000 then "\\u" ++ hex 4 code
  else "\\U" ++ hex 8 code

/-- Whether a code point is a surrogate. -/
def isSurrogate (code : Nat) : Bool := 0xD800 ≤ code && code ≤ 0xDFFF

/-- A code point as it is shown between the given quotes. -/
def quotedCode (quote code : Nat) : Text :=
  if code == 92 || code == quote then ['\\', Char.ofNat code]
  else if code == 10 then "\\n"
  else if code == 13 then "\\r"
  else if code == 9 then "\\t"
  else if isSurrogate code || !isPrintable (Char.ofNat code) then hexEscape code
  else [Char.ofNat code]

/-- The shown form of a list of code points. The quotes are single ones,
unless the text has a single quote and no double quote. -/
def quotedCodes (codes : List Nat) : Text :=
  let quote := if codes.contains 39 && !codes.contains 34 then 34 else 39
  Char.ofNat quote :: codes.flatMap (quotedCode quote) ++ [Char.ofNat quote]

/-- The shown form of a text. -/
def quoted (text : Text) : Text := quotedCodes (text.map Char.toNat)

end Namespacer.Text
