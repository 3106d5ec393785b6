import Namespacer.Json.Binary64

/-!
# JSON values

Objects keep the order of their keys. Integers are unbounded and apart from
floating-point numbers. Strings are lists of code points, because an escape
may stand for a surrogate, which no `Char` can be.
-/

namespace Namespacer

/-- A JSON value. -/
inductive Json where
  | null
  | bool (value : Bool)
  | int (value : Int)
  | double (value : Binary64)
  | string (codes : List Nat)
  | array (elements : List Json)
  | object (members : List (List Nat × Json))

namespace Json

instance : Inhabited Json := ⟨null⟩

/-- The code points of a text. -/
def codes (text : Text) : List Nat := text.map Char.toNat

/-- A text as a JSON string. -/
def ofText (text : Text) : Json := string (codes text)

/-- The value of a key among some members. -/
def get? (key : List Nat) (members : List (List Nat × Json)) : Option Json :=
  members.lookup key

/-- Sets the value of a key. A key that is there keeps its place, a new one
comes last. -/
def put (key : List Nat) (value : Json) : List (List Nat × Json) → List (List Nat × Json)
  | [] => [(key, value)]
  | (other, old) :: rest =>
    if other = key then (key, value) :: rest else (other, old) :: put key value rest

end Json

end Namespacer
