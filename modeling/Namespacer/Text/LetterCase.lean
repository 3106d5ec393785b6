import Namespacer.Text.LetterCaseTable
import Namespacer.Text.Alphanumeric

/-!
# Letter case

Lower and upper case of texts, and the comparison of single characters
that ignores case.

* `lower` maps a text character by character, with two exceptions: a dotted
  capital `İ` becomes two characters, and a capital sigma at the end of a
  word becomes the final form.
* `upper` replaces each character by its upper-case image, which may be
  longer than one character.
* `sameFolded` compares one character with one character and so never
  changes the length of what it compares.
-/

namespace Namespacer.Text

/-- The image of a code point under the first row that covers it. -/
def rowImage (rows : List (Nat × Nat × Nat × Nat)) (code : Nat) : Nat :=
  match rows.find? fun (low, high, step, _) =>
      low ≤ code && code ≤ high && (code - low) % step == 0 with
  | some (low, _, _, image) => image + (code - low)
  | none => code

/-- The lower-case image of one character, always one character. -/
def lowerChar (c : Char) : Char :=
  if c.toNat < 128 then c.toLower else Char.ofNat (rowImage lowerRows c.toNat)

/-- Whether a character is an upper-case, lower-case or title-case letter. -/
def isCased (c : Char) : Bool :=
  if c.toNat < 128 then c.isAlpha else inRanges casedRanges c.toNat

/-- Whether a character is passed over when the neighbours of a sigma are
looked for. -/
def isCaseIgnorable (c : Char) : Bool :=
  if c.toNat < 128 then c == '\'' || c == '.' || c == ':' || c == '^' || c.toNat == 96
  else inRanges caseIgnorableRanges c.toNat

/-- Whether the first character that is not passed over is a cased letter. -/
def leadsToCased (text : Text) : Bool :=
  match text.dropWhile isCaseIgnorable with
  | [] => false
  | c :: _ => isCased c

/-- The lower-case image of a character between the reversed text before it
and the text after it. -/
def lowerBetween (before : Text) (c : Char) (after : Text) : Text :=
  if c.toNat < 128 then [c.toLower]
  else if c.toNat = 0x130 then ['i', Char.ofNat 0x307]
  else if c.toNat = 0x3A3 then
    [if leadsToCased before && !leadsToCased after then Char.ofNat 0x3C2 else Char.ofNat 0x3C3]
  else [lowerChar c]

/-- Lower case of a text that continues the given reversed text. -/
def lowerFrom (before : Text) : Text → Text
  | [] => []
  | c :: text => lowerBetween before c text ++ lowerFrom (c :: before) text

/-- Lower case of a text. -/
def lower (text : Text) : Text := lowerFrom [] text

/-- The upper-case image of one character. -/
def upperChar (c : Char) : Text :=
  if c.toNat < 128 then [c.toUpper]
  else
    match upperExpansions.lookup c.toNat with
    | some image => image.map Char.ofNat
    | none => [Char.ofNat (rowImage upperRows c.toNat)]

/-- Upper case of a text. -/
def upper (text : Text) : Text := text.flatMap upperChar

/-- Whether two characters are the same up to letter case. -/
def sameFolded (a b : Char) : Bool :=
  let x := lowerChar a
  let y := lowerChar b
  x == y || ((sameLetters.lookup x.toNat).getD []).contains y.toNat

end Namespacer.Text
