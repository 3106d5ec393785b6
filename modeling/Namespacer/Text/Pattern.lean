import Namespacer.Text.Blank
import Namespacer.Text.LetterCase

/-!
# Patterns

Patterns over texts and what they match. A pattern repeats only classes of
single characters, so matching is a recursion on the pattern and on the
text, and every pattern stops.

A match starts at a place of the text: the character just before it matters
for word edges and line starts, the rest of the text is what is consumed.
`Pattern.ends` lists the places where a match can end in the order of
preference: longer runs first, left alternatives first. The match that
counts is the first one; a match further left wins over any match further
right.
-/

namespace Namespacer

/-- A place in a text. -/
structure Place where
  /-- The character just before the place, if there is one. -/
  before : Option Char
  /-- The text that follows. -/
  rest : Text
deriving DecidableEq, Repr

/-- A pattern over texts. -/
inductive Pattern where
  /-- Matches the empty text. -/
  | empty
  /-- Matches one character of a class. -/
  | one (accepts : Char → Bool)
  /-- Matches a run of characters of a class, possibly an empty one. -/
  | many (accepts : Char → Bool)
  /-- Matches the first pattern and then the second. -/
  | seq (first second : Pattern)
  /-- Matches the first pattern or else the second. -/
  | alt (first second : Pattern)
  /-- Matches between a word character and something else. -/
  | wordEdge
  /-- Matches at the start of the text. -/
  | start
  /-- Matches at the start of the text and after every line feed. -/
  | lineStart
  /-- Matches at the end of the text and before a line feed that ends it. -/
  | finish
  /-- Matches unless the character before is of a class. -/
  | notAfter (rejects : Char → Bool)
  /-- Matches unless the next character is of a class. -/
  | notBefore (rejects : Char → Bool)

namespace Place

/-- The first place of a text. -/
def first (text : Text) : Place := ⟨none, text⟩

/-- Whether the place lies between a word character and something else. -/
def atWordEdge (place : Place) : Bool :=
  place.before.any Text.isWord != place.rest.head?.any Text.isWord

/-- The places reached by runs of a class of characters, longest run first. -/
def runs (accepts : Char → Bool) (before : Option Char) : Text → List Place
  | [] => [⟨before, []⟩]
  | c :: rest =>
    if accepts c then runs accepts (some c) rest ++ [⟨before, c :: rest⟩]
    else [⟨before, c :: rest⟩]

/-- Stays at a place if a condition holds. -/
def stayIf (condition : Bool) (place : Place) : List Place :=
  if condition then [place] else []

end Place

namespace Pattern

/-- The places where a match that begins at a place can end, preferred ones
first. -/
def ends : Pattern → Place → List Place
  | empty, place => [place]
  | one accepts, place =>
    match place.rest with
    | [] => []
    | c :: rest => if accepts c then [⟨some c, rest⟩] else []
  | many accepts, place => Place.runs accepts place.before place.rest
  | seq first second, place => (ends first place).flatMap (ends second)
  | alt first second, place => ends first place ++ ends second place
  | wordEdge, place => place.stayIf place.atWordEdge
  | start, place => place.stayIf place.before.isNone
  | lineStart, place => place.stayIf (place.before.isNone || place.before == some '\n')
  | finish, place => place.stayIf (place.rest.isEmpty || place.rest == ['\n'])
  | notAfter rejects, place => place.stayIf (!place.before.any rejects)
  | notBefore rejects, place => place.stayIf (!place.rest.head?.any rejects)

/-- The end of the preferred match at a place. -/
def end? (pattern : Pattern) (place : Place) : Option Place := (pattern.ends place).head?

/-- Whether a pattern matches anywhere in the text after a character. -/
def occursFrom (pattern : Pattern) (before : Option Char) : Text → Bool
  | [] => !(pattern.ends ⟨before, []⟩).isEmpty
  | c :: rest =>
    !(pattern.ends ⟨before, c :: rest⟩).isEmpty || occursFrom pattern (some c) rest

/-- Whether a pattern matches anywhere in a text. -/
def occursIn (pattern : Pattern) (text : Text) : Bool := pattern.occursFrom none text

/-- The leftmost match in the text after a character: the text before it, the
text it covers and the text after it. -/
def firstFrom (pattern : Pattern) (before : Option Char) : Text → Option (Text × Text × Text)
  | [] => (pattern.end? ⟨before, []⟩).map fun _ => ([], [], [])
  | c :: rest =>
    match pattern.end? ⟨before, c :: rest⟩ with
    | some place =>
      some ([], (c :: rest).take (rest.length + 1 - place.rest.length), place.rest)
    | none =>
      (firstFrom pattern (some c) rest).map fun (skipped, covered, after) =>
        (c :: skipped, covered, after)

/-- The leftmost match in a text. -/
def first? (pattern : Pattern) (text : Text) : Option (Text × Text × Text) :=
  pattern.firstFrom none text

/-- Walks the text after a character and replaces every match by `image` of
the text it covers. The number counts the characters still to be passed over
because a match covers them. -/
def replaceFrom (pattern : Pattern) (image : Text → Text) :
    (before : Option Char) → Nat → Text → Text
  | _, _ + 1, [] => []
  | before, 0, [] =>
    match pattern.end? ⟨before, []⟩ with
    | some _ => image []
    | none => []
  | _, skip + 1, c :: rest => replaceFrom pattern image (some c) skip rest
  | before, 0, c :: rest =>
    match pattern.end? ⟨before, c :: rest⟩ with
    | none => c :: replaceFrom pattern image (some c) 0 rest
    | some place =>
      match rest.length + 1 - place.rest.length with
      | 0 => image [] ++ c :: replaceFrom pattern image (some c) 0 rest
      | covered + 1 =>
        image ((c :: rest).take (covered + 1)) ++
          replaceFrom pattern image (some c) covered rest

/-- Replaces every match, leftmost first and without overlaps. -/
def replaceAll (pattern : Pattern) (image : Text → Text) (text : Text) : Text :=
  pattern.replaceFrom image none 0 text

/-- One pattern after another. -/
def all : List Pattern → Pattern
  | [] => empty
  | [pattern] => pattern
  | pattern :: patterns => seq pattern (all patterns)

/-- The pattern or nothing, the pattern first. -/
def optional (pattern : Pattern) : Pattern := alt pattern empty

/-- A nonempty run of a class of characters. -/
def oneOrMore (accepts : Char → Bool) : Pattern := seq (one accepts) (many accepts)

/-- Exactly this character. -/
def char (c : Char) : Pattern := one (· == c)

/-- Exactly this text. -/
def literal (text : Text) : Pattern := all (text.map char)

/-- This text in any letter case. -/
def folded (text : Text) : Pattern := all (text.map fun c => one (Text.sameFolded c))

end Pattern

end Namespacer
