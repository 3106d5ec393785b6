import Namespacer.Json.Basic
import Namespacer.Text.Quoted

/-!
# Writing JSON

Two texts of a value: `print` writes JSON with one member or element to a
line, `shown` the short form in which a value appears in a log line.
-/

namespace Namespacer.Json

/-- How floating-point numbers without digits are written in JSON. -/
def printedSpelling : Binary64.Spelling := ⟨"NaN", "Infinity"⟩

/-- How floating-point numbers without digits are shown. -/
def shownSpelling : Binary64.Spelling := ⟨"nan", "inf"⟩

/-- The code points by which one code point of a string is written. Only the
quote, the backslash and control characters are escaped. -/
def escapedCode (code : Nat) : List Nat :=
  if code = 34 then codes "\\\""
  else if code = 92 then codes "\\\\"
  else if code = 10 then codes "\\n"
  else if code = 13 then codes "\\r"
  else if code = 9 then codes "\\t"
  else if code = 8 then codes "\\b"
  else if code = 12 then codes "\\f"
  else if code < 32 then codes ("\\u" ++ Text.hex 4 code)
  else [code]

/-- A string between quotes. -/
def printString (text : List Nat) : List Nat := 34 :: text.flatMap escapedCode ++ [34]

/-- A new line at a depth, four blanks to a level. -/
def newLine (depth : Nat) : List Nat := 10 :: List.replicate (4 * depth) 32

mutual

/-- The code points of a value at a depth. -/
def printAt (depth : Nat) : Json → List Nat
  | null => codes "null"
  | bool value => codes (if value then "true" else "false")
  | int value => codes (Text.ofInt value)
  | double value => codes (value.toText printedSpelling)
  | string text => printString text
  | array [] => codes "[]"
  | array (first :: rest) =>
    91 :: newLine (depth + 1) ++ printAt (depth + 1) first ++ printElements (depth + 1) rest ++
      newLine depth ++ [93]
  | object [] => codes "{}"
  | object ((key, value) :: rest) =>
    123 :: newLine (depth + 1) ++ printString key ++ codes ": " ++ printAt (depth + 1) value ++
      printMembers (depth + 1) rest ++ newLine depth ++ [125]

/-- The elements of an array after the first one. -/
def printElements (depth : Nat) : List Json → List Nat
  | [] => []
  | value :: rest => 44 :: newLine depth ++ printAt depth value ++ printElements depth rest

/-- The members of an object after the first one. -/
def printMembers (depth : Nat) : List (List Nat × Json) → List Nat
  | [] => []
  | (key, value) :: rest =>
    44 :: newLine depth ++ printString key ++ codes ": " ++ printAt depth value ++
      printMembers depth rest

end

/-- The code points of a value written over several lines. -/
def print (value : Json) : List Nat := printAt 0 value

mutual

/-- The form in which a value is shown. -/
def shown : Json → Text
  | null => "None"
  | bool value => if value then "True" else "False"
  | int value => Text.ofInt value
  | double value => value.toText shownSpelling
  | string text => Text.quotedCodes text
  | array elements => '[' :: shownElements elements ++ [']']
  | object members => Char.ofNat 123 :: shownMembers members ++ [Char.ofNat 125]

/-- Shown values with commas between them. -/
def shownElements : List Json → Text
  | [] => []
  | [value] => shown value
  | value :: next :: rest => shown value ++ ", " ++ shownElements (next :: rest)

/-- Shown members with commas between them. -/
def shownMembers : List (List Nat × Json) → Text
  | [] => []
  | [(key, value)] => Text.quotedCodes key ++ ": " ++ shown value
  | (key, value) :: next :: rest =>
    Text.quotedCodes key ++ ": " ++ shown value ++ ", " ++ shownMembers (next :: rest)

end

end Namespacer.Json
