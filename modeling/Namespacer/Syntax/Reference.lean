import Namespacer.Syntax.Tree

/-!
# Type references

The type names that a syntax tree mentions, in source order. Some shapes carry
type names themselves, some only lead to the trees below them, and the subject
of a type test is not looked into.

`mentions` is the recursion over the tree, and `collect` the same search with
a stack of trees still to be visited. Names may repeat, and a mention may have
no name, as in the creation of an object of a computed class.
-/

namespace Namespacer

/-- The kinds of positions that take a type name. -/
inductive Context where
  | extended
  | implemented
  | returned
  | parameter
  | property
  | caught
  | created
  | staticLookup
  | instanceOf
deriving DecidableEq, Repr

/-- The word by which a kind of position is reported. -/
def Context.label : Context → String
  | .extended => "extends"
  | .implemented => "implements"
  | .returned => "return"
  | .parameter => "parameter"
  | .property => "property"
  | .caught => "catch"
  | .created => "new"
  | .staticLookup => "staticlookup"
  | .instanceOf => "instanceof"

/-- A position that takes a type name, with what is written there. -/
structure Mention where
  name : Option Name
  context : Context
deriving DecidableEq, Repr

/-- A candidate for an import: a type name and where it was found. -/
structure Reference where
  name : Option Text
  context : Context
deriving DecidableEq, Repr

namespace Mention

/-- The reference that a mention makes. An empty name is no name. -/
def reference (m : Mention) : Reference :=
  ⟨(m.name.map Name.text).filter (!·.isEmpty), m.context⟩

/-- Whether a mention is reported for review, because a fully qualified name
needs no import of its own. Object creations are not checked. -/
def needsReview (m : Mention) : Bool :=
  m.context != .created &&
    m.name.any fun name => !name.text.isEmpty && name.resolution == .fullyQualified

end Mention

namespace Tree

/-- Mentions of some names in one context. -/
def mentionsOf (context : Context) (names : List Name) : List Mention :=
  names.map fun name => ⟨some name, context⟩

/-- The mentions made by the head of a class declaration. -/
def headMentions {τ : Type} (declaration : ClassDeclaration τ) : List Mention :=
  mentionsOf .extended declaration.extended ++ mentionsOf .implemented declaration.implemented

/-- The mentions that a tree makes itself, without the trees below it. -/
def ownMentions : Tree → List Mention
  | classDecl declaration => headMentions declaration
  | function _ _ _ returnType => mentionsOf .returned returnType
  | parameter _ type => mentionsOf .parameter type
  | property type _ => mentionsOf .property type
  | catchClause types _ => mentionsOf .caught types
  | new .unknown _ => [⟨none, .created⟩]
  | new (.named name) _ => [⟨some name, .created⟩]
  | staticLookup scope => [⟨scope, .staticLookup⟩]
  | instanceOf _ type => [⟨type, .instanceOf⟩]
  | _ => []

/-- The trees below a tree that are searched, in order. -/
def parts : Tree → List Tree
  | block _ children => children
  | leaf _ => []
  | classDecl declaration => declaration.body
  | function _ parameters body _ => parameters ++ body
  | parameter _ _ => []
  | property _ elements => elements
  | tryCatch body catches finallyBody => body ++ catches ++ finallyBody
  | catchClause _ body => body
  | new (.inPlace declaration) arguments => classDecl declaration :: arguments
  | new _ arguments => arguments
  | staticLookup _ => []
  | instanceOf _ _ => []
  | ifThen test body alternate => test.toList ++ body ++ alternate
  | ternary test whenTrue whenFalse => test.toList ++ whenTrue.toList ++ whenFalse.toList
  | throw what => what.toList
  | .return value => value.toList
  | echo expressions => expressions
  | unary what => what.toList
  | binary left right => left.toList ++ right.toList
  | assign left right => left.toList ++ right.toList
  | entry value => value.toList
  | call callee arguments => callee.toList ++ arguments
  | propertyLookup what => what.toList
  | statement expression => expression.toList

mutual

/-- The mentions of a tree, by recursion: its own, then those of its parts. -/
def mentions : Tree → List Mention
  | block _ children => mentionsAll children
  | leaf _ => []
  | classDecl ⟨_, extended, implemented, body, _⟩ =>
    mentionsOf .extended extended ++ mentionsOf .implemented implemented ++ mentionsAll body
  | function _ parameters body returnType =>
    mentionsOf .returned returnType ++ mentionsAll parameters ++ mentionsAll body
  | parameter _ type => mentionsOf .parameter type
  | property type elements => mentionsOf .property type ++ mentionsAll elements
  | tryCatch body catches finallyBody =>
    mentionsAll body ++ mentionsAll catches ++ mentionsAll finallyBody
  | catchClause types body => mentionsOf .caught types ++ mentionsAll body
  | new .unknown arguments => ⟨none, .created⟩ :: mentionsAll arguments
  | new (.named name) arguments => ⟨some name, .created⟩ :: mentionsAll arguments
  | new (.inPlace ⟨_, extended, implemented, body, _⟩) arguments =>
    mentionsOf .extended extended ++ mentionsOf .implemented implemented ++ mentionsAll body ++
      mentionsAll arguments
  | staticLookup scope => [⟨scope, .staticLookup⟩]
  | instanceOf _ type => [⟨type, .instanceOf⟩]
  | ifThen test body alternate => mentions? test ++ mentionsAll body ++ mentionsAll alternate
  | ternary test whenTrue whenFalse => mentions? test ++ mentions? whenTrue ++ mentions? whenFalse
  | throw what => mentions? what
  | .return value => mentions? value
  | echo expressions => mentionsAll expressions
  | unary what => mentions? what
  | binary left right => mentions? left ++ mentions? right
  | assign left right => mentions? left ++ mentions? right
  | entry value => mentions? value
  | call callee arguments => mentions? callee ++ mentionsAll arguments
  | propertyLookup what => mentions? what
  | statement expression => mentions? expression

/-- The mentions of some trees, one after another. -/
def mentionsAll : List Tree → List Mention
  | [] => []
  | tree :: rest => mentions tree ++ mentionsAll rest

/-- The mentions of a tree that may be missing. -/
def mentions? : Option Tree → List Mention
  | none => []
  | some tree => mentions tree

end

mutual

/-- The number of trees that a search visits. -/
def size : Tree → Nat
  | block _ children => 1 + sizeAll children
  | leaf _ => 1
  | classDecl ⟨_, _, _, body, _⟩ => 1 + sizeAll body
  | function _ parameters body _ => 1 + sizeAll parameters + sizeAll body
  | parameter _ _ => 1
  | property _ elements => 1 + sizeAll elements
  | tryCatch body catches finallyBody =>
    1 + sizeAll body + sizeAll catches + sizeAll finallyBody
  | catchClause _ body => 1 + sizeAll body
  | new .unknown arguments => 1 + sizeAll arguments
  | new (.named _) arguments => 1 + sizeAll arguments
  | new (.inPlace ⟨_, _, _, body, _⟩) arguments => 2 + sizeAll body + sizeAll arguments
  | staticLookup _ => 1
  | instanceOf _ _ => 1
  | ifThen test body alternate => 1 + size? test + sizeAll body + sizeAll alternate
  | ternary test whenTrue whenFalse => 1 + size? test + size? whenTrue + size? whenFalse
  | throw what => 1 + size? what
  | .return value => 1 + size? value
  | echo expressions => 1 + sizeAll expressions
  | unary what => 1 + size? what
  | binary left right => 1 + size? left + size? right
  | assign left right => 1 + size? left + size? right
  | entry value => 1 + size? value
  | call callee arguments => 1 + size? callee + sizeAll arguments
  | propertyLookup what => 1 + size? what
  | statement expression => 1 + size? expression

/-- The number of trees that a search of some trees visits. -/
def sizeAll : List Tree → Nat
  | [] => 0
  | tree :: rest => size tree + sizeAll rest

/-- The number of trees that a search of a tree visits that may be missing. -/
def size? : Option Tree → Nat
  | none => 0
  | some tree => size tree

end

/-- Visits the trees of a stack, first one first, and adds the mentions of
each to the reversed mentions found before. -/
def collectFrom : (steps : Nat) → List Tree → (found : List Mention) → List Mention
  | 0, _, found => found.reverse
  | _ + 1, [], found => found.reverse
  | steps + 1, tree :: stack, found =>
    collectFrom steps (tree.parts ++ stack) (tree.ownMentions.reverse ++ found)

/-- The mentions of a tree, with a stack of trees in place of recursion. -/
def collect (tree : Tree) : List Mention := collectFrom tree.size [tree] []

/-- The references of a tree that may be missing, in source order. -/
def references (tree : Option Tree) : List Reference :=
  ((tree.map collect).getD []).map Mention.reference

/-- The names of a tree that are reported for review, with their contexts. -/
def reviewed (tree : Option Tree) : List (Text × Context) :=
  (((tree.map collect).getD []).filter Mention.needsReview).filterMap fun m =>
    m.name.map fun name => (name.text, m.context)

end Tree

end Namespacer
