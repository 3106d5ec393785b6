import Namespacer.Text.LetterCase

/-!
# PascalCase names

`pascalCase` turns `user_model`, `user-model` and `userModel` into
`UserModel`. A text is cut into words at every run of characters that are
neither letters nor digits, and inside such a word at the edges between
ASCII letters of different case and between ASCII letters and digits. Each
word gets an upper-case first letter and keeps the rest as it is.
-/

namespace Namespacer

open Text

/-- Whether a word ends between `previous` and `current`, where `next` is the
character after `current`. -/
def isWordJoint (previous current : Char) (next : Option Char) : Bool :=
  ((previous.isLower || previous.isDigit) && current.isUpper) ||
  (previous.isUpper && current.isUpper && next.any Char.isLower) ||
  (previous.isAlpha && current.isDigit) ||
  (previous.isDigit && current.isAlpha)

/-- The words of a text, given the reversed beginning of the first one. -/
def wordsFrom : (word : Text) → Text → List Text
  | word, [] => if word.isEmpty then [] else [word.reverse]
  | [], c :: text => if isAlphanumeric c then wordsFrom [c] text else wordsFrom [] text
  | previous :: word, c :: text =>
    if !isAlphanumeric c then (previous :: word).reverse :: wordsFrom [] text
    else if isWordJoint previous c text.head? then
      (previous :: word).reverse :: wordsFrom [c] text
    else wordsFrom (c :: previous :: word) text

/-- The words of a text, none of them empty. -/
def pascalWords (text : Text) : List Text := wordsFrom [] text

/-- A word with its first letter in upper case. -/
def capitalize : Text → Text
  | [] => []
  | c :: word => upperChar c ++ word

/-- The PascalCase form of a text. -/
def pascalCase (text : Text) : Text := (pascalWords text).flatMap capitalize

/-- Whether a text is its own PascalCase form. -/
def isPascalCase (text : Text) : Bool := text == pascalCase text

end Namespacer
