/-!
# Texts

A text is a list of characters. Everything in this library that reads or
writes program text, names and messages works on this type, so that each
function is a recursion on the text itself.

The functions here are those that need no character classes: prefixes,
splitting at a separator, joining and literal replacement.
-/

namespace Namespacer

/-- A text, as the list of its characters. -/
abbrev Text := List Char

/-- A string literal may stand where a text is expected. -/
instance : Coe String Text := ⟨String.toList⟩

namespace Text

/-- What follows `head` in a text that begins with it. -/
def after? : (head text : Text) → Option Text
  | [], text => some text
  | _ :: _, [] => none
  | h :: head, c :: text => if h = c then after? head text else none

/-- Whether a text begins with `head`. -/
def startsWith (text head : Text) : Bool := (after? head text).isSome

/-- Whether a text ends with `tail`. -/
def endsWith (text tail : Text) : Bool := startsWith text.reverse tail.reverse

/-- The pieces between the separators of a text. There is always one piece
more than there are separators. -/
def splitOn (separator : Char) : Text → List Text
  | [] => [[]]
  | c :: text =>
    if c = separator then [] :: splitOn separator text
    else
      match splitOn separator text with
      | [] => [[c]]
      | piece :: pieces => (c :: piece) :: pieces

/-- The pieces in order, with the separator between neighbours. -/
def join (separator : Text) : List Text → Text
  | [] => []
  | [piece] => piece
  | piece :: pieces => piece ++ separator ++ join separator pieces

/-- The text before and after the first `separator`, if there is one. -/
def cut? (separator : Char) : Text → Option (Text × Text)
  | [] => none
  | c :: text =>
    if c = separator then some ([], text)
    else (cut? separator text).map fun (before, after) => (c :: before, after)

/-- What follows the last `separator`; the whole text where there is none. -/
def afterLast (separator : Char) (text : Text) : Text :=
  (text.reverse.takeWhile (· != separator)).reverse

/-- Drops the trailing characters that satisfy `p`. -/
def dropEndWhile (p : Char → Bool) (text : Text) : Text :=
  (text.reverse.dropWhile p).reverse

/-- Pads a text with blanks on the right to at least `width` characters. -/
def padEnd (width : Nat) (text : Text) : Text :=
  text ++ List.replicate (width - text.length) ' '

/-- Walks a text replacing `old` by `new` from the left. The first argument
counts the characters still to be passed over because a match covers them. -/
def replaceFrom (old new : Text) : Nat → Text → Text
  | _, [] => []
  | skip + 1, _ :: text => replaceFrom old new skip text
  | 0, c :: text =>
    if startsWith (c :: text) old then new ++ replaceFrom old new (old.length - 1) text
    else c :: replaceFrom old new 0 text

/-- Replaces every occurrence of `old`, leftmost first and without overlaps.
An empty `old` stands before every character and at the end. -/
def replace (old new text : Text) : Text :=
  if old.isEmpty then text.flatMap (fun c => new ++ [c]) ++ new
  else replaceFrom old new 0 text

/-- The decimal digits of a number. -/
def ofNat (n : Nat) : Text := (toString n).toList

/-- The decimal digits of an integer, with a minus sign where it is negative. -/
def ofInt : Int → Text
  | .ofNat n => ofNat n
  | .negSucc n => '-' :: ofNat (n + 1)

/-- Whether the first text comes before the second, or equals it, in the
order of code points. -/
def le : Text → Text → Bool
  | [], _ => true
  | _ :: _, [] => false
  | a :: s, b :: t => if a = b then le s t else a.toNat < b.toNat

end Text

end Namespacer
