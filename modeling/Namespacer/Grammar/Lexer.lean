import Namespacer.Grammar.Token
import Namespacer.Syntax.Concrete

/-!
# Cutting a text into tokens

`Token.scan` cuts every text into tokens. A text alternates between literal
text and program code; blanks and comments leave no token behind, and neither
does literal text of blanks only. Strings with embedded expressions are one
token each.
-/

namespace Namespacer.Grammar

/-- The characters beyond ASCII that are blanks of the program text: spaces that do not break or
have no width, and the mark of the byte order. -/
def spaceSigns : List Char := [0xA0, 0x200B, 0x2060, 0xFEFF].map Char.ofNat

/-- Whether a character may begin a name. -/
def isNameStart (c : Char) : Bool :=
  c.isAlpha || c == '_' || (128 ≤ c.toNat && !spaceSigns.contains c)

/-- Whether a character may stand in a name. -/
def isNameChar (c : Char) : Bool := isNameStart c || c.isDigit

/-- Whether a character of ASCII is a blank. -/
def isSpace (c : Char) : Bool := c == ' ' || (9 ≤ c.toNat && c.toNat ≤ 13)

/-- The length of a comment that ends with its line or before a close tag. -/
def lineCommentLength : Text → Nat
  | [] => 0
  | '?' :: '>' :: _ => 0
  | c :: text => if c = '\n' then 0 else 1 + lineCommentLength text

/-- The length of what is left of a comment between stars, its end included. -/
def blockCommentLength : Text → Nat
  | [] => 0
  | '*' :: '/' :: _ => 2
  | _ :: text => 1 + blockCommentLength text

/-- What encloses a character of a string: quotes, or an embedded expression. -/
inductive Enclosure where
  | quotes (mark : Char)
  | code
deriving DecidableEq, Repr

/-- Where a character of a string leads: the enclosures of the next character,
and the number of characters to pass over before it. A backslash takes the next
character with it, and an embedded expression may hold strings of its own. -/
def enclose (next : Option Char) (c : Char) : List Enclosure → List Enclosure × Nat
  | [] => ([], 0)
  | .quotes mark :: outer =>
    if c = '\\' then (.quotes mark :: outer, 1)
    else if c = mark then (outer, 0)
    else if mark = '\'' then (.quotes mark :: outer, 0)
    else if c = '{' ∧ next = some '$' then (.code :: .quotes mark :: outer, 0)
    else if c = '$' ∧ next = some '{' then (.code :: .quotes mark :: outer, 1)
    else (.quotes mark :: outer, 0)
  | .code :: outer =>
    if c = '{' then (.code :: .code :: outer, 0)
    else if c = '}' then (outer, 0)
    else if c = '"' ∨ c = '\'' then (.quotes c :: .code :: outer, 0)
    else (.code :: outer, 0)

/-- The length of what is left of a string inside the given enclosures, the
innermost one first, after passing over some characters. -/
def quotedFrom : List Enclosure → Nat → Text → Nat
  | _, _, [] => 0
  | enclosures, skip + 1, _ :: text => 1 + quotedFrom enclosures skip text
  | [], 0, _ :: _ => 0
  | enclosures, 0, c :: text =>
    let (inner, skip) := enclose text.head? c enclosures
    1 + quotedFrom inner skip text

/-- The length of what is left of a string after its opening quote, the closing
quote included. -/
def quotedLength (mark : Char) (text : Text) : Nat := quotedFrom [.quotes mark] 0 text

/-- The length of the closing label that a line begins with, if it does. -/
def closingLength? (label line : Text) : Option Nat :=
  let indent := (line.takeWhile fun c => c == ' ' || c == '\t').length
  match Text.after? label (line.drop indent) with
  | some rest => if rest.head?.any isNameChar then none else some (indent + label.length)
  | none => none

/-- The length of what is left of a heredoc, its closing label included. The
flag says whether a line begins here. -/
def heredocLength (label : Text) : Bool → Text → Nat
  | _, [] => 0
  | lineStart, c :: text =>
    match if lineStart then closingLength? label (c :: text) else none with
    | some length => length
    | none => 1 + heredocLength label (c == '\n') text

/-- The heredoc after its three angle brackets: whether it is taken literally,
and the length of the rest. -/
def heredoc? (text : Text) : Option (Bool × Nat) :=
  let indent := (text.takeWhile fun c => c == ' ' || c == '\t').length
  let opening := text.drop indent
  let quote := opening.head?.filter fun c => c == '"' || c == '\''
  let quoteLength := if quote.isSome then 1 else 0
  let label := (opening.drop quoteLength).takeWhile isNameChar
  let headLength := indent + label.length + 2 * quoteLength
  if label.isEmpty then none
  else some (quote == some '\'', headLength + heredocLength label false (text.drop headLength))

/-- The length of digits of a kind with underscores between them. -/
def digitsLength (isDigit : Char → Bool) (text : Text) : Nat :=
  (text.takeWhile fun c => isDigit c || c == '_').length

/-- The length of an exponent, if a number goes on with one. -/
def exponentLength : Text → Nat
  | e :: text =>
    if e = 'e' ∨ e = 'E' then
      let sign := if text.head? = some '+' ∨ text.head? = some '-' then 1 else 0
      let digits := digitsLength Char.isDigit (text.drop sign)
      if digits = 0 then 0 else 1 + sign + digits
    else 0
  | [] => 0

/-- The length of the digits behind the mark of a radix; zero if a number does
not begin with such a mark. -/
def radixLength : Text → Nat
  | '0' :: mark :: rest =>
    if mark = 'x' ∨ mark = 'X' then
      digitsLength (fun c => (Char.isDigit c || ('a' ≤ c.toLower && c.toLower ≤ 'f'))) rest
    else if mark = 'b' ∨ mark = 'B' ∨ mark = 'o' ∨ mark = 'O' then
      digitsLength Char.isDigit rest
    else 0
  | _ => 0

/-- The length of a fraction with its dot, if a number goes on with one. -/
def fractionLength : Text → Nat
  | '.' :: '.' :: _ => 0
  | '.' :: rest => 1 + digitsLength Char.isDigit rest
  | _ => 0

/-- The number at the start of a text, and its length. -/
def number (text : Text) : Lexeme × Nat :=
  let radix := radixLength text
  if radix > 0 then (.integer, radix + 2)
  else
    let whole := digitsLength Char.isDigit text
    let afterWhole := text.drop whole
    let fraction := fractionLength afterWhole
    let exponent := exponentLength (afterWhole.drop fraction)
    (if fraction + exponent = 0 then .integer else .float, whole + fraction + exponent)

/-- Recognizes the start of a text of program code: the lexeme, none for blanks
and comments, and its length. After an operand a dot is an operator, even
before a digit. -/
def recognize (afterOperand : Bool) (text : Text) : Option Lexeme × Nat :=
  match text with
  | [] => (none, 0)
  | '/' :: '/' :: rest => (none, 2 + lineCommentLength rest)
  | '/' :: '*' :: rest => (none, 2 + blockCommentLength rest)
  | '#' :: '[' :: _ => (some (.symbol .openAttribute), 2)
  | '#' :: rest => (none, 1 + lineCommentLength rest)
  | '?' :: '>' :: _ => (some .closeTag, 2)
  | '\'' :: rest => (some .string, 1 + quotedLength '\'' rest)
  | '"' :: rest => (some .encapsed, 1 + quotedLength '"' rest)
  | c :: rest =>
    if isSpace c || spaceSigns.contains c then (none, 1)
    else if c.toNat = 96 then (some .shell, 1 + quotedLength c rest)
    else if c = '$' ∧ rest.head?.any isNameStart then
      (some .variable, 1 + (rest.takeWhile isNameChar).length)
    else if (c = 'b' ∨ c = 'B') ∧ rest.head? = some '\'' then
      (some .string, 2 + quotedLength '\'' (rest.drop 1))
    else if (c = 'b' ∨ c = 'B') ∧ rest.head? = some '"' then
      (some .encapsed, 2 + quotedLength '"' (rest.drop 1))
    else if isNameStart c then
      let word := (c :: rest).takeWhile isNameChar
      (some (.word word (Keyword.ofWord? word)), word.length)
    else if c.isDigit ∨ (c = '.' ∧ !afterOperand ∧ rest.head?.any Char.isDigit) then
      let (lexeme, length) := number (c :: rest)
      (some lexeme, length)
    else
      match Text.after? "<<<" text, Symbol.atStart? text with
      | some afterAngles, symbol =>
        match heredoc? afterAngles, symbol with
        | some (isLiteral, length), _ =>
          (some (if isLiteral then .nowdoc else .heredoc), 3 + length)
        | none, some (symbol, length) => (some (.symbol symbol), length)
        | none, none => (some .unknown, 1)
      | none, some (symbol, length) => (some (.symbol symbol), length)
      | none, none => (some .unknown, 1)

/-- Whether a lexeme can end an operand. -/
def endsOperand : Lexeme → Bool
  | .symbol .closeParen | .symbol .closeBracket | .symbol .closeBrace => true
  | .symbol _ | .openTag | .closeTag | .html | .unknown => false
  | _ => true

/-- The length of the open tag at the start of a text, if there is one. -/
def openTagLength? : Text → Option Nat
  | '<' :: '?' :: rest =>
    if (rest.take 3).map Char.toLower = "php".toList then some 5
    else if rest.head? = some '=' then some 3
    else some 2
  | _ => none

/-- The number of characters before the first open tag. -/
def htmlLength : Text → Nat
  | [] => 0
  | c :: text => if (openTagLength? (c :: text)).isSome then 0 else 1 + htmlLength text

mutual

/-- The tokens of a text that begins outside of the tags, at the given byte.
The first argument bounds the number of steps. -/
def scanHtml : Nat → Nat → Text → List Token
  | 0, _, _ => []
  | steps + 1, position, text =>
    let html := text.take (htmlLength text)
    let rest := text.drop (htmlLength text)
    let opening := position + Text.byteSize html
    let tag :=
      match openTagLength? rest with
      | some length =>
        ⟨.openTag, opening, opening + length⟩ ::
          scanCode steps (opening + length) false (rest.drop length)
      | none => []
    if html.all isSpace then tag else ⟨.html, position, opening⟩ :: tag

/-- The tokens of a text that begins inside of the tags, at the given byte. -/
def scanCode : Nat → Nat → Bool → Text → List Token
  | 0, _, _, _ => []
  | _ + 1, _, _, [] => []
  | steps + 1, position, afterOperand, c :: text =>
    let (lexeme, length) := recognize afterOperand (c :: text)
    let stop := position + Text.byteSize ((c :: text).take length)
    let rest := (c :: text).drop length
    match lexeme with
    | none => scanCode steps stop afterOperand rest
    | some .closeTag => ⟨.closeTag, position, stop⟩ :: scanHtml steps stop rest
    | some lexeme => ⟨lexeme, position, stop⟩ :: scanCode steps stop (endsOperand lexeme) rest

end

/-- The tokens of a text. A byte order mark at its start is passed over. -/
def Token.scan (text : Text) : List Token :=
  let steps := 2 * text.length + 2
  match text with
  | c :: rest => if c.toNat = 0xFEFF then scanHtml steps 3 rest else scanHtml steps 0 (c :: rest)
  | [] => []

end Namespacer.Grammar
