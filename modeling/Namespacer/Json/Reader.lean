import Namespacer.Json.Basic

/-!
# Reading JSON

A reader for JSON texts that also takes `NaN`, `Infinity` and `-Infinity`.
Where a key is repeated in an object, its first place and its last value
count. A fault says what was expected and at which character.
-/

namespace Namespacer.Json

/-- What is wrong with a JSON text. -/
inductive Fault where
  | expectedValue
  | expectedName
  | expectedColon
  | expectedComma
  | extraData
  | controlCharacter
  | invalidEscape
  | invalidUnicodeEscape
  | unterminatedString
  | byteOrderMark
  /-- An integer with more digits than are read. -/
  | tooManyDigits (count : Nat)
deriving DecidableEq, Repr

/-- A fault and the number of characters before it. -/
structure FaultAt where
  fault : Fault
  position : Nat
deriving DecidableEq, Repr

/-- The most digits that an integer may have. -/
def maxDigits : Nat := 4300

/-- What is left to read, and the number of characters read before it. -/
structure Cursor where
  position : Nat
  rest : Text

namespace Cursor

/-- Passes over a number of characters. -/
def advance (cursor : Cursor) (count : Nat) : Cursor :=
  ⟨cursor.position + count, cursor.rest.drop count⟩

/-- A fault at the cursor. -/
def fail {α : Type} (cursor : Cursor) (fault : Fault) : Except FaultAt (α × Cursor) :=
  .error ⟨fault, cursor.position⟩

/-- Whether a character is white space between the parts of a value. -/
def isSpace (c : Char) : Bool := c == ' ' || c == '\t' || c == '\n' || c == '\r'

/-- Passes over white space. -/
def skipSpace (cursor : Cursor) : Cursor :=
  cursor.advance (cursor.rest.takeWhile isSpace).length

end Cursor

/-- The value of a hexadecimal digit. -/
def hexValue? (c : Char) : Option Nat :=
  if '0' ≤ c ∧ c ≤ '9' then some (c.toNat - 48)
  else if 'a' ≤ c ∧ c ≤ 'f' then some (c.toNat - 87)
  else if 'A' ≤ c ∧ c ≤ 'F' then some (c.toNat - 55)
  else none

/-- The code of four hexadecimal digits. -/
def hexCode? (digits : Text) : Option Nat :=
  digits.foldl (fun code c => do pure (16 * (← code) + (← hexValue? c))) (some 0)

/-- The code point that an escape of one letter stands for. -/
def escapeCode? : Char → Option Nat
  | '"' => some 34
  | '\\' => some 92
  | '/' => some 47
  | 'b' => some 8
  | 'f' => some 12
  | 'n' => some 10
  | 'r' => some 13
  | 't' => some 9
  | _ => none

/-- Reads the rest of a string whose opening quote is at `opening`. The first
argument bounds the number of characters and escapes. -/
def stringFrom (opening : Nat) :
    Nat → Nat → Text → List Nat → Except FaultAt (List Nat × Cursor)
  | 0, _, _, _ => .error ⟨.unterminatedString, opening⟩
  | _ + 1, _, [], _ => .error ⟨.unterminatedString, opening⟩
  | fuel + 1, position, c :: rest, found =>
    if c = '"' then .ok (found.reverse, ⟨position + 1, rest⟩)
    else if c = '\\' then
      match rest with
      | [] => .error ⟨.unterminatedString, opening⟩
      | 'u' :: rest =>
        if rest.length < 5 then .error ⟨.invalidUnicodeEscape, position + 1⟩
        else
          match hexCode? (rest.take 4) with
          | some code => stringFrom opening fuel (position + 6) (rest.drop 4) (code :: found)
          | none => .error ⟨.invalidUnicodeEscape, position + 1⟩
      | e :: rest =>
        match escapeCode? e with
        | some code => stringFrom opening fuel (position + 2) rest (code :: found)
        | none => .error ⟨.invalidEscape, position⟩
    else if c.toNat < 32 then .error ⟨.controlCharacter, position⟩
    else stringFrom opening fuel (position + 1) rest (c.toNat :: found)

/-- Joins each high surrogate with the low surrogate right after it. -/
def joinSurrogates : List Nat → List Nat
  | high :: low :: rest =>
    if 0xD800 ≤ high ∧ high < 0xDC00 ∧ 0xDC00 ≤ low ∧ low < 0xE000 then
      (0x10000 + (high - 0xD800) * 0x400 + (low - 0xDC00)) :: joinSurrogates rest
    else high :: joinSurrogates (low :: rest)
  | codes => codes

/-- Reads a string after its opening quote. -/
def readString (cursor : Cursor) : Except FaultAt (List Nat × Cursor) := do
  let (codes, cursor) ←
    stringFrom (cursor.position - 1) (cursor.rest.length + 1) cursor.position cursor.rest []
  pure (joinSurrogates codes, cursor)

/-- The digits at the start of a text. -/
def leadingDigits (text : Text) : Text := text.takeWhile Char.isDigit

/-- The value of some decimal digits. -/
def digitsValue (digits : Text) : Nat := digits.foldl (fun n c => 10 * n + (c.toNat - 48)) 0

/-- The fraction part of a number: its digits after the point, if there are
any. -/
def fractionDigits : Text → Text
  | '.' :: rest => leadingDigits rest
  | _ => []

/-- The exponent part of a number: its length and its value, if it is there. -/
def exponentPart? : Text → Option (Nat × Int)
  | [] => none
  | e :: rest =>
    if e = 'e' ∨ e = 'E' then
      let (signs, digits, negative) :=
        match rest with
        | '-' :: rest => (1, leadingDigits rest, true)
        | '+' :: rest => (1, leadingDigits rest, false)
        | rest => (0, leadingDigits rest, false)
      if digits.isEmpty then none
      else
        let value : Int := digitsValue digits
        some (1 + signs + digits.length, if negative then -value else value)
    else none

/-- The integer part of a number: a single zero or digits without a leading
zero. -/
def integerDigits : Text → Text
  | '0' :: _ => ['0']
  | text => leadingDigits text

/-- Reads a number. -/
def readNumber (cursor : Cursor) : Except FaultAt (Json × Cursor) :=
  let negative := cursor.rest.head? == some '-'
  let body := if negative then cursor.rest.drop 1 else cursor.rest
  let whole := integerDigits body
  if whole.isEmpty then cursor.fail .expectedValue
  else
    let afterWhole := body.drop whole.length
    let fraction := fractionDigits afterWhole
    let afterFraction :=
      if fraction.isEmpty then afterWhole else afterWhole.drop (fraction.length + 1)
    let exponent? := exponentPart? afterFraction
    let length := (if negative then 1 else 0) + whole.length +
      (if fraction.isEmpty then 0 else fraction.length + 1) + (exponent?.map (·.1)).getD 0
    if fraction.isEmpty && exponent?.isNone then
      if whole.length > maxDigits then cursor.fail (.tooManyDigits whole.length)
      else
        let value : Int := digitsValue whole
        .ok (.int (if negative then -value else value), cursor.advance length)
    else
      let exponent := (exponent?.map (·.2)).getD 0 - fraction.length
      .ok (.double (Binary64.ofDecimal negative (digitsValue (whole ++ fraction)) exponent),
        cursor.advance length)

/-- The values that are written as words. -/
def words : List (String × Json) :=
  [("null", .null), ("true", .bool true), ("false", .bool false), ("NaN", .double .nan),
    ("Infinity", .double (.infinite false)), ("-Infinity", .double (.infinite true))]

/-- Reads a word or a number. -/
def readScalar (cursor : Cursor) : Except FaultAt (Json × Cursor) :=
  match words.find? fun (word, _) => Text.startsWith cursor.rest word with
  | some (word, value) => .ok (value, cursor.advance word.length)
  | none => readNumber cursor

mutual

/-- Reads a value. The first argument bounds the depth and the number of its
parts. -/
def readValue : Nat → Cursor → Except FaultAt (Json × Cursor)
  | 0, cursor => cursor.fail .expectedValue
  | fuel + 1, cursor =>
    match cursor.rest with
    | '"' :: _ => do
      let (codes, cursor) ← readString (cursor.advance 1)
      pure (.string codes, cursor)
    | '{' :: _ =>
      let cursor := (cursor.advance 1).skipSpace
      match cursor.rest with
      | '}' :: _ => .ok (.object [], cursor.advance 1)
      | _ => readMembers fuel cursor []
    | '[' :: _ =>
      let cursor := (cursor.advance 1).skipSpace
      match cursor.rest with
      | ']' :: _ => .ok (.array [], cursor.advance 1)
      | _ => readElements fuel cursor []
    | _ => readScalar cursor

/-- Reads the members of an object up to its closing brace. -/
def readMembers : Nat → Cursor → List (List Nat × Json) → Except FaultAt (Json × Cursor)
  | 0, cursor, _ => cursor.fail .expectedName
  | fuel + 1, cursor, members =>
    match cursor.rest with
    | '"' :: _ => do
      let (key, cursor) ← readString (cursor.advance 1)
      let cursor := cursor.skipSpace
      match cursor.rest with
      | ':' :: _ =>
        let (value, cursor) ← readValue fuel (cursor.advance 1).skipSpace
        let members := put key value members
        let cursor := cursor.skipSpace
        match cursor.rest with
        | '}' :: _ => pure (.object members, cursor.advance 1)
        | ',' :: _ => readMembers fuel (cursor.advance 1).skipSpace members
        | _ => cursor.fail .expectedComma
      | _ => cursor.fail .expectedColon
    | _ => cursor.fail .expectedName

/-- Reads the elements of an array up to its closing bracket. -/
def readElements : Nat → Cursor → List Json → Except FaultAt (Json × Cursor)
  | 0, cursor, _ => cursor.fail .expectedValue
  | fuel + 1, cursor, elements => do
    let (value, cursor) ← readValue fuel cursor
    let elements := value :: elements
    let cursor := cursor.skipSpace
    match cursor.rest with
    | ']' :: _ => pure (.array elements.reverse, cursor.advance 1)
    | ',' :: _ => readElements fuel (cursor.advance 1).skipSpace elements
    | _ => cursor.fail .expectedComma

end

/-- Reads a text that holds one JSON value. -/
def parse (text : Text) : Except FaultAt Json := do
  if text.head? = some (Char.ofNat 0xFEFF) then throw ⟨.byteOrderMark, 0⟩
  let (value, cursor) ← readValue (2 * text.length + 2) (Cursor.skipSpace ⟨0, text⟩)
  let cursor := cursor.skipSpace
  if cursor.rest.isEmpty then pure value else throw ⟨.extraData, cursor.position⟩

/-- The words for a fault. -/
def Fault.text : Fault → Text
  | .expectedValue => "Expecting value"
  | .expectedName => "Expecting property name enclosed in double quotes"
  | .expectedColon => "Expecting ':' delimiter"
  | .expectedComma => "Expecting ',' delimiter"
  | .extraData => "Extra data"
  | .controlCharacter => "Invalid control character at"
  | .invalidEscape => "Invalid \\escape"
  | .invalidUnicodeEscape => "Invalid \\uXXXX escape"
  | .unterminatedString => "Unterminated string starting at"
  | .byteOrderMark => "Unexpected UTF-8 BOM (decode using utf-8-sig)"
  | .tooManyDigits count =>
    "Exceeds the limit (4300 digits) for integer string conversion: value has ".toList ++
      Text.ofNat count ++
      " digits; use sys.set_int_max_str_digits() to increase the limit"

/-- The message for a fault in a text: the words, and the place by line, by
column and by character. -/
def FaultAt.message (text : Text) (fault : FaultAt) : Text :=
  match fault.fault with
  | .tooManyDigits count => Fault.text (.tooManyDigits count)
  | words =>
    let before := text.take fault.position
    let line := before.count '\n' + 1
    let column := (Text.afterLast '\n' before).length + 1
    Fault.text words ++ ": line " ++ Text.ofNat line ++ " column " ++ Text.ofNat column ++
      " (char " ++ Text.ofNat fault.position ++ ")"

end Namespacer.Json
