import Namespacer.Syntax.Concrete
import Namespacer.Syntax.Tree
import Std.Data.TreeMap

/-!
# From concrete trees to syntax trees

`build` makes the syntax tree of one node out of the trees of the nodes below
it. Two conversions rest on it:

* `toTree` is the plain recursion: children first, then the node;
* `convert` keeps a stack of nodes still to be visited and a table of the
  trees that are finished. A node is built when the trees that it asks for are
  in the table; one that is not is made on the spot.
-/

namespace Namespacer

/-- Words that may stand at the place of a type but never name a class. -/
def nonClassNames : List Text :=
  ["self", "static", "parent", "array", "callable", "iterable", "bool", "int", "float",
    "string", "void", "mixed", "object", "null", "false", "true", "never"].map String.toList

/-- Kinds of nodes whose content is never looked at. -/
def isOpaqueKind : String → Bool
  | "comment" | "text" | "php_tag" | "name" | "variable_name" | "string" | "string_content"
  | "string_value" | "encapsed_string" | "shell_command_expression" | "heredoc" | "nowdoc"
  | "integer" | "float" | "boolean" | "null" | "namespace_use_declaration"
  | "use_declaration" | "attribute_list" => true
  | _ => false

/-- Kinds of nodes that are names. -/
def isNameKind : String → Bool
  | "name" | "qualified_name" => true
  | _ => false

/-- Kinds of nodes that are types. -/
def isTypeKind : String → Bool
  | "named_type" | "optional_type" | "union_type" | "intersection_type"
  | "disjunctive_normal_form_type" | "primitive_type" | "type_list" => true
  | _ => false

/-- Kinds of types that hold no class name. -/
def isBuiltInTypeKind : String → Bool
  | "primitive_type" | "bottom_type" => true
  | _ => false

/-- The ways in which a node is made into a syntax tree. -/
inductive Shape where
  | declaration
  | function
  | parameter
  | property
  | tryCatch
  | catchClause
  | creation
  | scopedCall
  | scopedAccess
  | binary
  | assignment
  | conditional
  | ifThen
  | elseBranch
  | throwing
  | returning
  | printing
  | prefixed
  | element
  | call
  | memberCall
  | memberAccess
  | statement
deriving DecidableEq, Repr

/-- The way in which a kind of nodes is made into a syntax tree, if it has a
way of its own. -/
def Shape.ofKind? : String → Option Shape
  | "class_declaration" | "interface_declaration" | "trait_declaration"
  | "enum_declaration" => some .declaration
  | "method_declaration" | "function_definition" | "anonymous_function"
  | "anonymous_function_creation_expression" | "arrow_function" => some .function
  | "simple_parameter" | "variadic_parameter" | "property_promotion_parameter" =>
    some .parameter
  | "property_declaration" => some .property
  | "try_statement" => some .tryCatch
  | "catch_clause" => some .catchClause
  | "object_creation_expression" => some .creation
  | "scoped_call_expression" => some .scopedCall
  | "scoped_property_access_expression" | "class_constant_access_expression" =>
    some .scopedAccess
  | "binary_expression" => some .binary
  | "assignment_expression" | "augmented_assignment_expression"
  | "reference_assignment_expression" => some .assignment
  | "conditional_expression" => some .conditional
  | "if_statement" | "else_if_clause" => some .ifThen
  | "else_clause" => some .elseBranch
  | "throw_expression" | "throw_statement" => some .throwing
  | "return_statement" => some .returning
  | "echo_statement" => some .printing
  | "unary_op_expression" => some .prefixed
  | "array_element_initializer" => some .element
  | "function_call_expression" => some .call
  | "member_call_expression" | "nullsafe_member_call_expression" => some .memberCall
  | "member_access_expression" | "nullsafe_member_access_expression" => some .memberAccess
  | "expression_statement" => some .statement
  | _ => none

/-- A text without a suffix, if it has the suffix. -/
def withoutSuffix (kind ending : String) : String :=
  let text := kind.toList
  if Text.endsWith text ending then String.ofList (text.take (text.length - ending.length))
  else kind

namespace Concrete

variable {μ : Type}

/-- The name that a node spells, if it is a name node and not a reserved
word. -/
def name? (source : Text) (n : Concrete μ) : Option Name :=
  if isNameKind n.kind then
    let text := Text.strip (n.text source)
    if text.isEmpty || nonClassNames.contains (Text.lower text) then none
    else some (Name.ofText text)
  else none

/-- The text of a node as the name of what is declared; an empty text is no
name. -/
def declaredName? (source : Text) (n : Option (Concrete μ)) : Option Text :=
  (n.map (text source)).filter (!·.isEmpty)

mutual

/-- The class names of a type expression, from left to right. -/
def typeNames (source : Text) : Concrete μ → List Name
  | node mark kind named field start stop children =>
    if isBuiltInTypeKind kind then []
    else if isNameKind kind then
      (name? source (node mark kind named field start stop children)).toList
    else typeNamesAll source children

/-- The class names of the visible ones among some nodes. -/
def typeNamesAll (source : Text) : List (Concrete μ) → List Name
  | [] => []
  | n :: rest =>
    if n.isVisible then typeNames source n ++ typeNamesAll source rest
    else typeNamesAll source rest

end

/-- The class names of a type expression that may be missing. -/
def typeNames? (source : Text) (n : Option (Concrete μ)) : List Name :=
  (n.map (typeNames source)).getD []

/-- The type that a node declares: the child in the type field or else the
first child that is a type. -/
def declaredType? (n : Concrete μ) : Option (Concrete μ) :=
  n.childAt? "type" <|> n.visible.find? (isTypeKind ·.kind)

/-- The names listed in an inheritance clause. -/
def clauseNames (source : Text) (n : Concrete μ) : List Name := n.visible.filterMap (name? source)

/-- The tree of the body of a node, if it has one. -/
def bodyOf (convert : Concrete μ → Tree) (n : Concrete μ) : List Tree :=
  ((n.childAt? "body").map convert).toList

/-- The trees of the visible children of a node that may be missing. -/
def visibleTrees (convert : Concrete μ → Tree) (n : Option (Concrete μ)) : List Tree :=
  ((n.map visible).getD []).map convert

/-- Adds what one child says about a class to what is known of it. -/
def addMember (source : Text) (convert : Concrete μ → Tree)
    (declaration : ClassDeclaration Tree) (child : Concrete μ) : ClassDeclaration Tree :=
  match child.kind with
  | "base_clause" =>
    { declaration with extended := declaration.extended ++ clauseNames source child }
  | "class_interface_clause" =>
    { declaration with implemented := declaration.implemented ++ clauseNames source child }
  | "declaration_list" | "enum_declaration_list" =>
    { declaration with body := child.visible.map convert }
  | _ => declaration

/-- The class that a node declares. -/
def classOf (source : Text) (convert : Concrete μ → Tree) (n : Concrete μ) :
    ClassDeclaration Tree :=
  n.visible.foldl (addMember source convert)
    { name := declaredName? source (n.childAt? "name")
      declaration := withoutSuffix n.kind "_declaration" }

/-- What has been read of an object creation. -/
structure Creation where
  what : Created Tree := .unknown
  arguments : List Tree := []
  /-- Whether the members of a class stand in the creation itself. -/
  declaresClass : Bool := false

/-- Adds what one child says about an object creation. -/
def Creation.add (source : Text) (convert : Concrete μ → Tree) (creation : Creation)
    (child : Concrete μ) : Creation :=
  if isNameKind child.kind then
    { creation with
      what := match name? source child with
        | some name => .named name
        | none => .unknown }
  else
    match child.kind with
    | "anonymous_class" =>
      { creation with
        what := .inPlace (classOf source convert child)
        arguments := visibleTrees convert (child.visible.find? (·.kind == "arguments")) }
    | "arguments" => { creation with arguments := visibleTrees convert (some child) }
    | "declaration_list" => { creation with declaresClass := true }
    | _ => creation

/-- The tree of an object creation. -/
def creationOf (source : Text) (convert : Concrete μ → Tree) (n : Concrete μ) : Tree :=
  let creation := n.visible.foldl (Creation.add source convert) {}
  match creation.what, creation.declaresClass with
  | .unknown, true => .new (.inPlace (classOf source convert n)) creation.arguments
  | what, _ => .new what creation.arguments

/-- The types that a catch clause catches. -/
def caughtTypes (source : Text) (n : Concrete μ) : List Name :=
  match n.childAt? "type" with
  | some type => typeNames source type
  | none =>
    (n.visible.filter fun c => isTypeKind c.kind || isNameKind c.kind).flatMap
      (typeNames source)

/-- The tree of a node that has no way of its own. -/
def plain (convert : Concrete μ → Tree) (n : Concrete μ) : Tree :=
  if isOpaqueKind n.kind || n.visible.isEmpty then .leaf n.kind
  else .block n.kind (n.visible.map convert)

/-- The tree of a node of a given shape. -/
def shaped (source : Text) (convert : Concrete μ → Tree) (n : Concrete μ) : Shape → Tree
  | .declaration => .classDecl (classOf source convert n)
  | .function =>
    .function (declaredName? source (n.childAt? "name"))
      (visibleTrees convert (n.childAt? "parameters")) (bodyOf convert n)
      (typeNames? source (n.childAt? "return_type"))
  | .parameter =>
    .parameter (((n.childAt? "name").map (text source)).getD [])
      (typeNames? source n.declaredType?)
  | .property =>
    .property (typeNames? source n.declaredType?)
      ((n.visible.filter (·.kind == "property_element")).map convert)
  | .tryCatch =>
    .tryCatch (bodyOf convert n) ((n.visible.filter (·.kind == "catch_clause")).map convert)
      (((n.visible.filter (·.kind == "finally_clause")).getLast?.map (bodyOf convert)).getD [])
  | .catchClause => .catchClause (caughtTypes source n) (bodyOf convert n)
  | .creation => creationOf source convert n
  | .scopedCall =>
    .call (some (.staticLookup ((n.childAt? "scope").bind (name? source))))
      (visibleTrees convert (n.childAt? "arguments"))
  | .scopedAccess =>
    .staticLookup ((n.childAt? "scope" <|> n.visible.head?).bind (name? source))
  | .binary =>
    let left := n.childAt? "left"
    let right := n.childAt? "right"
    let operator := ((n.childAt? "operator").map (text source)).getD []
    if Text.lower operator = "instanceof".toList then
      .instanceOf (left.map convert) (right.bind (name? source))
    else .binary (left.map convert) (right.map convert)
  | .assignment => .assign ((n.childAt? "left").map convert) ((n.childAt? "right").map convert)
  | .conditional =>
    .ternary ((n.childAt? "condition").map convert) ((n.childAt? "body").map convert)
      ((n.childAt? "alternative").map convert)
  | .ifThen =>
    .ifThen ((n.childAt? "condition").map convert) (bodyOf convert n)
      (((n.childrenAt "alternative").filter (·.kind != "comment")).map convert)
  | .elseBranch => .block n.kind (bodyOf convert n)
  | .throwing => .throw (n.visible.head?.map convert)
  | .returning => .return (n.visible.head?.map convert)
  | .printing => .echo (n.visible.map convert)
  | .prefixed => .unary ((n.childAt? "argument" <|> n.visible.getLast?).map convert)
  | .element => .entry (n.visible.getLast?.map convert)
  | .call =>
    .call ((n.childAt? "function").map convert) (visibleTrees convert (n.childAt? "arguments"))
  | .memberCall =>
    .call (some (.propertyLookup ((n.childAt? "object").map convert)))
      (visibleTrees convert (n.childAt? "arguments"))
  | .memberAccess => .propertyLookup ((n.childAt? "object").map convert)
  | .statement => .statement (n.visible.head?.map convert)

/-- The syntax tree of a node over a source, made from the trees of the nodes
below it. -/
def build (source : Text) (convert : Concrete μ → Tree) (n : Concrete μ) : Tree :=
  match Shape.ofKind? n.kind with
  | some shape => shaped source convert n shape
  | none => plain convert n

mutual

/-- Marks every node with its syntax tree, children first. -/
def withTrees (source : Text) : Concrete μ → Concrete Tree
  | node _ kind named field start stop children =>
    let children := withTreesAll source children
    let unfinished := node default kind named field start stop children
    node (build source mark unfinished) kind named field start stop children

/-- Marks every node of some trees. -/
def withTreesAll (source : Text) : List (Concrete μ) → List (Concrete Tree)
  | [] => []
  | n :: rest => withTrees source n :: withTreesAll source rest

end

/-- The syntax tree of a concrete tree over a source, by recursion. -/
def toTree (source : Text) (n : Concrete μ) : Tree := (withTrees source n).mark

/-! ## With a stack -/

/-- Kinds of nodes that list the members of a class. -/
def holdsMembers : String → Bool
  | "declaration_list" | "enum_declaration_list" => true
  | _ => false

/-- The nodes whose trees are the members of a class. -/
def memberNodes (n : Concrete μ) : List (Concrete μ) :=
  (n.visible.filter (holdsMembers ·.kind)).flatMap visible

/-- The visible children of a node that may be missing. -/
def visible? (n : Option (Concrete μ)) : List (Concrete μ) := (n.map visible).getD []

/-- The nodes whose trees one child asks for in an object creation. -/
def creationNodesOf (child : Concrete μ) : List (Concrete μ) :=
  if isNameKind child.kind then []
  else
    match child.kind with
    | "anonymous_class" =>
      memberNodes child ++ visible? (child.visible.find? (·.kind == "arguments"))
    | "arguments" => child.visible
    | _ => []

/-- The nodes whose trees an object creation asks for. -/
def creationNodes (source : Text) (n : Concrete μ) : List (Concrete μ) :=
  let creation := n.visible.foldl (Creation.add source fun _ => default) {}
  n.visible.flatMap creationNodesOf ++
    match creation.what, creation.declaresClass with
    | .unknown, true => memberNodes n
    | _, _ => []

/-- The nodes whose trees one child asks for in a block whose errors are caught. -/
def tryNodesOf (child : Concrete μ) : List (Concrete μ) :=
  match child.kind with
  | "catch_clause" => [child]
  | "finally_clause" => (child.childAt? "body").toList
  | _ => []

/-- The nodes whose trees a node of a given shape asks for, in order. -/
def shapedNodes (source : Text) (n : Concrete μ) : Shape → List (Concrete μ)
  | .declaration => memberNodes n
  | .function => visible? (n.childAt? "parameters") ++ (n.childAt? "body").toList
  | .parameter | .scopedAccess => []
  | .property => n.visible.filter (·.kind == "property_element")
  | .tryCatch => n.visible.flatMap tryNodesOf ++ (n.childAt? "body").toList
  | .catchClause | .elseBranch => (n.childAt? "body").toList
  | .creation => creationNodes source n
  | .scopedCall => visible? (n.childAt? "arguments")
  | .binary =>
    let operator := ((n.childAt? "operator").map (text source)).getD []
    if Text.lower operator = "instanceof".toList then (n.childAt? "left").toList
    else (n.childAt? "left").toList ++ (n.childAt? "right").toList
  | .assignment => (n.childAt? "left").toList ++ (n.childAt? "right").toList
  | .conditional =>
    (n.childAt? "condition").toList ++ (n.childAt? "body").toList ++
      (n.childAt? "alternative").toList
  | .ifThen =>
    (n.childAt? "condition").toList ++ (n.childAt? "body").toList ++
      (n.childrenAt "alternative").filter (·.kind != "comment")
  | .throwing | .returning | .statement => n.visible.head?.toList
  | .printing => n.visible
  | .prefixed => (n.childAt? "argument" <|> n.visible.getLast?).toList
  | .element => n.visible.getLast?.toList
  | .call => (n.childAt? "function").toList ++ visible? (n.childAt? "arguments")
  | .memberCall => (n.childAt? "object").toList ++ visible? (n.childAt? "arguments")
  | .memberAccess => (n.childAt? "object").toList

/-- The nodes whose trees are asked for when the tree of a node is built, in
order. -/
def requested (source : Text) (n : Concrete μ) : List (Concrete μ) :=
  match Shape.ofKind? n.kind with
  | some shape => shapedNodes source n shape
  | none => if isOpaqueKind n.kind then [] else n.visible

/-- The trees that are finished, under the marks of their nodes. -/
abbrev Finished := Std.TreeMap Nat Tree

/-- The finished tree of a node. -/
def finishedTree (finished : Finished) (n : Concrete Nat) : Tree :=
  (finished[n.mark]?).getD default

/-- Adds the tree of a node. Before it is built, `ensure` sees to the nodes that
it asks for. -/
def addTree (source : Text) (ensure : Finished → Concrete Nat → Finished) (finished : Finished)
    (n : Concrete Nat) : Finished :=
  let finished := (n.requested source).foldl ensure finished
  finished.insert n.mark (n.build source (finishedTree finished))

/-- Adds the tree of a node that is not finished yet, and before it those of the
nodes that it asks for. The number bounds the depth of the nodes that are not
finished. -/
def ensureWithin (source : Text) : (depth : Nat) → Finished → Concrete Nat → Finished
  | 0, finished, _ => finished
  | depth + 1, finished, n =>
    if finished.contains n.mark then finished
    else addTree source (ensureWithin source depth) finished n

/-- Makes sure that the tree of a node is finished. -/
def ensure (source : Text) (finished : Finished) (n : Concrete Nat) : Finished :=
  if finished.contains n.mark then finished else ensureWithin source n.size finished n

/-- Visits the nodes of a stack, at most as many times as `steps`, and gives the
stack that is left and the finished trees. A node whose flag is set, or whose
content is never looked at, is built; any other node is put back behind its
children. -/
def visitAll (source : Text) :
    (steps : Nat) → List (Concrete Nat × Bool) → Finished → List (Concrete Nat × Bool) × Finished
  | 0, stack, finished => (stack, finished)
  | _ + 1, [], finished => ([], finished)
  | steps + 1, (n, childrenDone) :: stack, finished =>
    if childrenDone || isOpaqueKind n.kind then
      visitAll source steps stack (addTree source (ensure source) finished n)
    else
      visitAll source steps (n.children.reverse.map (·, false) ++ (n, true) :: stack) finished

/-- The syntax tree of a concrete tree over a source, with a stack of nodes in
place of recursion. Every node is taken from the stack at most twice. -/
def convert (source : Text) (root : Concrete Nat) : Tree :=
  finishedTree (visitAll source (2 * root.size) [(root, false)] {}).2 root

end Concrete

end Namespacer
