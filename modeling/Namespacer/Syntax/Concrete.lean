import Namespacer.Text.Basic

/-!
# Concrete trees

The tree of a source text as its grammar gives it: every node has a kind, may
carry a field name that says what it is to its parent, and covers a range of
bytes of the text. Nodes are named or anonymous (punctuation and keywords).

The tree does not hold the text. The same tree can be read over two texts,
and `text` says what a node covers in one of them. Every node carries a mark
of a type of the user's choice: nothing, a number that identifies the node, or
something computed from it.
-/

namespace Namespacer

/-- The number of bytes that a text takes in UTF-8. -/
def Text.byteSize (text : Text) : Nat := text.foldr (fun c size => c.utf8Size + size) 0

/-- Drops the characters that begin before the given byte. -/
def Text.dropBytes : Nat → Text → Text
  | _, [] => []
  | bytes, c :: text => if bytes = 0 then c :: text else dropBytes (bytes - c.utf8Size) text

/-- The characters that begin before the given byte. -/
def Text.takeBytes : Nat → Text → Text
  | _, [] => []
  | bytes, c :: text => if bytes = 0 then [] else c :: takeBytes (bytes - c.utf8Size) text

/-- A node of a concrete tree with marks of type `μ`. -/
inductive Concrete (μ : Type) where
  | node (mark : μ) (kind : String) (named : Bool) (field : Option String)
      (start stop : Nat) (children : List (Concrete μ))
deriving Inhabited

namespace Concrete

variable {μ ν : Type}

/-- The mark of a node. -/
def mark : Concrete μ → μ
  | node mark .. => mark

/-- The kind of a node. -/
def kind : Concrete μ → String
  | node _ kind .. => kind

/-- Whether a node is named. -/
def named : Concrete μ → Bool
  | node _ _ named .. => named

/-- What a node is to its parent. -/
def field : Concrete μ → Option String
  | node _ _ _ field .. => field

/-- The first byte of the text that a node covers. -/
def start : Concrete μ → Nat
  | node _ _ _ _ start .. => start

/-- The first byte after the text that a node covers. -/
def stop : Concrete μ → Nat
  | node _ _ _ _ _ stop _ => stop

/-- The children of a node, in order. -/
def children : Concrete μ → List (Concrete μ)
  | node _ _ _ _ _ _ children => children

/-- The text that a node covers. -/
def text (source : Text) (n : Concrete μ) : Text :=
  Text.takeBytes (n.stop - n.start) (Text.dropBytes n.start source)

/-- Whether a node takes part in the tree that a reader sees: it is named and
not a comment. -/
def isVisible (n : Concrete μ) : Bool := n.named && n.kind != "comment"

/-- The visible children of a node. -/
def visible (n : Concrete μ) : List (Concrete μ) := n.children.filter isVisible

/-- The first child with a field name. -/
def childAt? (n : Concrete μ) (field : String) : Option (Concrete μ) :=
  n.children.find? (·.field == some field)

/-- All children with a field name. -/
def childrenAt (n : Concrete μ) (field : String) : List (Concrete μ) :=
  n.children.filter (·.field == some field)

/-- The node as a child with a field name. -/
def withField (field : String) : Concrete μ → Concrete μ
  | node mark kind named _ start stop children =>
    node mark kind named (some field) start stop children

mutual

/-- The number of nodes of a tree. -/
def size : Concrete μ → Nat
  | node _ _ _ _ _ _ children => 1 + sizeAll children

/-- The number of nodes of some trees. -/
def sizeAll : List (Concrete μ) → Nat
  | [] => 0
  | n :: rest => size n + sizeAll rest

end

mutual

/-- Numbers the nodes of a tree in pre-order, beginning at `next`; also gives
the first number not used. -/
def numberedFrom (next : Nat) : Concrete μ → Concrete Nat × Nat
  | node _ kind named field start stop children =>
    let (children, last) := numberedAllFrom (next + 1) children
    (node next kind named field start stop children, last)

/-- Numbers the nodes of some trees one after another. -/
def numberedAllFrom (next : Nat) : List (Concrete μ) → List (Concrete Nat) × Nat
  | [] => ([], next)
  | n :: rest =>
    let (n, next) := numberedFrom next n
    let (rest, last) := numberedAllFrom next rest
    (n :: rest, last)

end

/-- The tree with each node marked by a number of its own. -/
def numbered (n : Concrete μ) : Concrete Nat := (numberedFrom 0 n).1

end Concrete

end Namespacer
