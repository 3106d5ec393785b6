import Namespacer.Text.Pattern
import Namespacer.Text.Quoted

/-!
# Ignore rules

Lines that say which paths are to be ignored, in the manner of version
control systems. A line is cut into segments at its slashes; each segment
becomes a pattern, and the patterns of the segments together say which paths
the line matches. A rule that begins with an exclamation mark takes paths back,
and of several matching rules the last one decides.
-/

namespace Namespacer

/-- Why a line is not an ignore rule. -/
inductive IgnoreFault where
  /-- The line has no segments, or a segment ends in a lone backslash. -/
  | malformed (line : Text)
  /-- A class of characters has a range that runs backwards. -/
  | reversedRange
deriving DecidableEq, Repr

/-- The message for a malformed line. -/
def IgnoreFault.message : IgnoreFault → Text
  | malformed line => "Invalid git pattern: ".toList ++ Text.quoted line
  | reversedRange => "bad character range"

/-- A way to read lines of patterns: it says which paths they match. -/
abbrev PatternReader := List Text → Except IgnoreFault (Text → Bool)

/-- What patterns exclude. Blank patterns are left out, and without any other one nothing is
excluded and nothing read. -/
def PatternReader.excluding (reader : PatternReader) (patterns : List Text) :
    Except IgnoreFault (Text → Bool) :=
  match patterns.filter (fun text => !(Text.strip text).isEmpty) with
  | [] => .ok fun _ => false
  | lines => reader lines

/-- An ignore rule. -/
structure IgnoreRule where
  /-- Matches the paths that the rule speaks of. -/
  pattern : Pattern
  /-- Whether these paths are ignored; otherwise they are taken back. -/
  ignores : Bool

namespace Ignore

/-! ## Segments -/

/-- A piece of a segment. -/
inductive Piece where
  /-- A character that stands for itself. -/
  | literal (c : Char)
  /-- Any run of characters. -/
  | anyRun
  /-- Any one character. -/
  | anyOne
  /-- One character of a class, or one that is not of it. -/
  | oneOf (negated : Bool) (members : List (Char × Char))
deriving DecidableEq, Repr

/-- Whether the line separates segments at a character. -/
def isSlash (c : Char) : Bool := c == '/'

/-- The members of a class as ranges. A hyphen between two characters makes a
range of them, at the end it stands for itself. -/
def classMembers : Text → List (Char × Char)
  | low :: '-' :: high :: rest => (low, high) :: classMembers rest
  | c :: rest => (c, c) :: classMembers rest
  | [] => []

/-- Cuts the text after an opening bracket into the members of the class and
what follows the closing bracket. A closing bracket in the first place is a
member. -/
def cutClass? : Text → Option (Text × Text)
  | [] => none
  | first :: rest => (Text.cut? ']' rest).map fun (members, after) => (first :: members, after)

/-- Whether a class is negated, and the text after the mark of negation. -/
def cutNegation : Text → Bool × Text
  | '!' :: rest => (true, rest)
  | '^' :: rest => (true, rest)
  | rest => (false, rest)

/-- A class of characters after its opening bracket: the piece and the number
of characters that it takes. -/
def readClass? (text : Text) : Option (Piece × Nat) :=
  let (negated, members) := cutNegation text
  (cutClass? members).map fun (members, after) =>
    (.oneOf negated (classMembers members), text.length - after.length)

/-- Reads a segment. The number counts the characters still to be passed over.
A bracket that is not closed stands for itself; a lone backslash at the end
has nothing to stand for. -/
def readPieces? : Nat → Text → Option (List Piece)
  | _, [] => some []
  | skip + 1, _ :: rest => readPieces? skip rest
  | 0, '\\' :: c :: rest => (readPieces? 1 (c :: rest)).map (.literal c :: ·)
  | 0, ['\\'] => none
  | 0, '*' :: rest => (readPieces? 0 rest).map (.anyRun :: ·)
  | 0, '?' :: rest => (readPieces? 0 rest).map (.anyOne :: ·)
  | 0, '[' :: rest =>
    match readClass? rest with
    | some (piece, taken) => (readPieces? taken rest).map (piece :: ·)
    | none => (readPieces? 0 rest).map (.literal '[' :: ·)
  | 0, c :: rest => (readPieces? 0 rest).map (.literal c :: ·)

/-- Whether all ranges of a piece run forwards. -/
def Piece.isOrdered : Piece → Bool
  | oneOf _ members => members.all fun (low, high) => low.toNat ≤ high.toNat
  | _ => true

/-- Whether a range holds a character. -/
def inRange (c : Char) (range : Char × Char) : Bool :=
  range.1.toNat ≤ c.toNat && c.toNat ≤ range.2.toNat

/-- The pattern of a piece. Wildcards do not match slashes, negated classes
do. -/
def Piece.pattern : Piece → Pattern
  | literal c => Pattern.char c
  | anyRun => .many (!isSlash ·)
  | anyOne => .one (!isSlash ·)
  | oneOf negated members => .one fun c => members.any (inRange c) != negated

/-- A segment of a line. -/
inductive Segment where
  /-- Two asterisks: any directories. -/
  | directories
  /-- One asterisk: any name. -/
  | anyName
  /-- Anything else. -/
  | glob (pieces : List Piece)
deriving DecidableEq, Repr

/-- Reads a segment. -/
def Segment.ofText? (text : Text) : Option Segment :=
  if text = "**".toList then some .directories
  else if text = "*".toList then some .anyName
  else (readPieces? 0 text).map .glob

/-! ## Lines -/

/-- Puts two asterisks before a line of one segment that is not anchored, and
drops the empty segment that anchors a line. -/
def anchorSegments : List Text → List Text
  | [] => []
  | [] :: segments => segments
  | [name] => if name = "**".toList then [name] else ["**", name]
  | [name, []] => if name = "**".toList then [name, []] else ["**", name, []]
  | segments => segments

/-- Two asterisks in place of an empty last segment. -/
def openEnd : List Text → List Text
  | [] => []
  | [[]] => ["**"]
  | segment :: segments => segment :: openEnd segments

/-- Drops two asterisks before two asterisks. -/
def collapse : List Text → List Text
  | a :: b :: rest =>
    if a = "**".toList ∧ b = "**".toList then collapse (b :: rest)
    else a :: collapse (b :: rest)
  | segments => segments

/-- The segments of a line in normal form. -/
def segmentsOf (line : Text) : List Text :=
  collapse (openEnd (anchorSegments (Text.splitOn '/' line)))

open Pattern in
/-- The pattern of the segments of a line. `isFirst` says that nothing comes
before, `slashDue` that a slash has to come before the next name. -/
def patternFrom (isFirst slashDue : Bool) : List Segment → Pattern
  | [] => .empty
  | [.directories] => char '/'
  | .directories :: rest =>
    let below := oneOrMore (· != '\n')
    if isFirst then
      all [start, Pattern.optional (seq below (char '/')), patternFrom false slashDue rest]
    else all [Pattern.optional (seq (char '/') below), patternFrom false true rest]
  | segment :: rest =>
    let lead := if isFirst then start else .empty
    let slash := if slashDue then char '/' else .empty
    let isName := oneOrMore (!isSlash ·)
    let own :=
      match segment with
      | .glob pieces =>
        if rest.isEmpty then all (pieces.map Piece.pattern ++ [alt (char '/') finish])
        else all (pieces.map Piece.pattern)
      | _ => if rest.isEmpty then all [isName, Pattern.optional (char '/'), finish] else isName
    all [lead, slash, own, patternFrom false true rest]

/-- The segments of a line without its mark of negation, if it has some and
all of them can be read. -/
def readSegments? (line : Text) : Option (List Segment) :=
  match segmentsOf line with
  | [] => none
  | segments => segments.mapM Segment.ofText?

/-- Whether all ranges of a segment run forwards. -/
def Segment.isOrdered : Segment → Bool
  | glob pieces => pieces.all Piece.isOrdered
  | _ => true

open Pattern in
/-- The pattern of the segments of a line. Segments of asterisks only are about
all paths, or about those below a directory. -/
def patternOf (endsInSlash : Bool) : List Segment → Pattern
  | [.directories] => if endsInSlash then char '/' else one (· != '\n')
  | [.directories, .anyName] => one (· != '\n')
  | [.directories, .anyName, .directories] => char '/'
  | segments => patternFrom true false segments

/-- A line without the blanks at its end, unless the last one is escaped. -/
def trimLine (line : Text) : Text :=
  if Text.endsWith line "\\ " then line else Text.dropEndWhile Text.isBlank line

/-- Whether a line takes paths back, and the line after the mark for it. -/
def cutMark : Text → Bool × Text
  | '!' :: rest => (true, rest)
  | rest => (false, rest)

/-- Reads a line. Empty lines and comments are no rules. -/
def ruleOf (line : Text) : Except IgnoreFault (Option IgnoreRule) :=
  match trimLine line with
  | [] => .ok none
  | '#' :: _ => .ok none
  | trimmed =>
    let (takesBack, rest) := cutMark trimmed
    match readSegments? rest with
    | none => .error (.malformed line)
    | some segments =>
      let endsInSlash := Text.endsWith rest ['/'] && rest != ['/']
      if segments.all Segment.isOrdered then
        .ok (some ⟨patternOf endsInSlash segments, !takesBack⟩)
      else .error .reversedRange

/-- Reads the rules of some lines. -/
def rulesOf : List Text → Except IgnoreFault (List IgnoreRule)
  | [] => .ok []
  | line :: lines => do
    let rule? ← ruleOf line
    let rules ← rulesOf lines
    pure (rule?.toList ++ rules)

/-- The path that rules are matched against: without a leading slash, or else
without a leading dot and slash. -/
def relativePath : Text → Text
  | '/' :: path => path
  | '.' :: '/' :: path => path
  | path => path

/-- What the last matching rule says about a path; nothing is ignored where no
rule matches. -/
def isIgnored (rules : List IgnoreRule) (path : Text) : Bool :=
  (rules.reverse.find? fun rule => rule.pattern.occursIn (relativePath path)).any (·.ignores)

/-- What the rules of some lines ignore. -/
def reader : PatternReader := fun lines => (rulesOf lines).map isIgnored

end Ignore

end Namespacer
