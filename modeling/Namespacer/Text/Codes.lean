import Namespacer.Text.Blank

/-!
# Texts with surrogates

The names on a disk and the arguments of a program are bytes. Those that spell
no character are kept as surrogates, code points that no character has, so such
a name is no text but a list of code points.
-/

namespace Namespacer

/-- Code points, surrogates among them. -/
abbrev Codes := List Nat

namespace Codes

/-- Whether a code point is white space. Surrogates are not. -/
def isBlank (code : Nat) : Bool := Text.isBlank (Char.ofNat code)

/-- Drops code points at both ends. -/
def trim (p : Nat → Bool) (codes : Codes) : Codes :=
  ((codes.dropWhile p).reverse.dropWhile p).reverse

/-- The order of code points. -/
def le : Codes → Codes → Bool
  | [], _ => true
  | _ :: _, [] => false
  | a :: s, b :: t => if a = b then le s t else a < b

end Codes

end Namespacer
