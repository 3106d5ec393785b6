import Namespacer.Text.Basic

/-!
# Replacement templates

The text put in place of a match. A backslash in a template introduces a
reference to a part of the match or an escaped character; a template without
a backslash stands for itself.
-/

namespace Namespacer

/-- A piece of a template. -/
inductive TemplatePiece where
  /-- A text that stands for itself. -/
  | text (text : Text)
  /-- A part of the match: number zero is the whole of it. -/
  | group (number : Nat)
deriving DecidableEq, Repr

/-- What is wrong with a template. -/
inductive TemplateFault where
  /-- An escape that means nothing, or a part that the match does not have. -/
  | malformed
  /-- A part asked for by a name. -/
  | unknownName
deriving DecidableEq, Repr

namespace Template

/-- Whether a character is an octal digit. -/
def isOctal (c : Char) : Bool := '0' ≤ c && c ≤ '7'

/-- The value of octal digits. -/
def octalValue (digits : Text) : Nat := digits.foldl (fun n c => 8 * n + (c.toNat - 48)) 0

/-- The value of decimal digits. -/
def decimalValue (digits : Text) : Nat := digits.foldl (fun n c => 10 * n + (c.toNat - 48)) 0

/-- A reference to a part that the match has to have. -/
def group (groups number : Nat) : Except TemplateFault TemplatePiece :=
  if number ≤ groups then .ok (.group number) else .error .malformed

/-- The character that an escape of one letter stands for. -/
def escape? : Char → Option Char
  | 'a' => some (Char.ofNat 7)
  | 'b' => some (Char.ofNat 8)
  | 'f' => some (Char.ofNat 12)
  | 'n' => some '\n'
  | 'r' => some '\r'
  | 't' => some '\t'
  | 'v' => some (Char.ofNat 11)
  | '\\' => some '\\'
  | _ => none

/-- The reference written between angle brackets after `\g`. -/
def named (groups : Nat) (name : Text) : Except TemplateFault TemplatePiece :=
  if name.isEmpty then .error .malformed
  else if name.all Char.isDigit then group groups (decimalValue name)
  else if name.head?.any Char.isDigit || !name.all (fun c => c.isAlphanum || c == '_') then
    .error .malformed
  else .error .unknownName

/-- Reads what follows a backslash: the piece it stands for and the number of
characters read. -/
def readEscape (groups : Nat) : Text → Except TemplateFault (TemplatePiece × Nat)
  | [] => .error .malformed
  | 'g' :: '<' :: rest =>
    match Text.cut? '>' rest with
    | some (name, _) => (named groups name).map (·, name.length + 3)
    | none => .error .malformed
  | '0' :: rest =>
    let digits := (rest.take 2).takeWhile isOctal
    .ok (.text [Char.ofNat (octalValue digits % 256)], digits.length + 1)
  | c :: rest =>
    if c.isDigit then
      let digits := c :: (rest.take 2).takeWhile Char.isDigit
      if digits.length = 3 && digits.all isOctal then
        if octalValue digits > 255 then .error .malformed
        else .ok (.text [Char.ofNat (octalValue digits)], 3)
      else
        let digits := digits.take 2
        (group groups (decimalValue digits)).map (·, digits.length)
    else
      match escape? c with
      | some image => .ok (.text [image], 1)
      | none => if c.isAlpha then .error .malformed else .ok (.text ['\\', c], 1)

/-- Reads a template. The number counts the characters still to be passed over
because an escape covers them. -/
def parseFrom (groups : Nat) : Nat → Text → Except TemplateFault (List TemplatePiece)
  | _, [] => .ok []
  | skip + 1, _ :: rest => parseFrom groups skip rest
  | 0, c :: rest =>
    if c = '\\' then do
      let (piece, length) ← readEscape groups rest
      let pieces ← parseFrom groups length rest
      pure (piece :: pieces)
    else do
      let pieces ← parseFrom groups 0 rest
      pure (.text [c] :: pieces)

/-- Reads a template for a match that has the given number of parts. -/
def parse (groups : Nat) (template : Text) : Except TemplateFault (List TemplatePiece) :=
  parseFrom groups 0 template

/-- The text of a template for a match whose parts are given. -/
def expand (pieces : List TemplatePiece) (parts : Nat → Text) : Text :=
  pieces.flatMap fun
    | .text text => text
    | .group number => parts number

end Template

end Namespacer
