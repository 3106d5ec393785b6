import Namespacer.Syntax.Name

/-!
# Syntax trees

The tree of a source file as the search for type references sees it. The
set of shapes is closed. A construct without a shape of its own is a `block`
if something below it is worth looking at, and a `leaf` otherwise.
-/

namespace Namespacer

/-- A class, interface, trait or enum, named or not, whose members have type
`τ`. -/
structure ClassDeclaration (τ : Type) where
  name : Option Text
  extended : List Name := []
  implemented : List Name := []
  body : List τ := []
  /-- The kind of declaration: `class`, `interface`, `trait`, `enum`, … -/
  declaration : String := "class"
deriving Inhabited

/-- What an object creation creates. -/
inductive Created (τ : Type) where
  /-- Something that is not a type name, such as a variable. -/
  | unknown
  /-- An object of a named class. -/
  | named (name : Name)
  /-- An object of a class declared on the spot. -/
  | inPlace (declaration : ClassDeclaration τ)

/-- A syntax tree. -/
inductive Tree where
  /-- A construct whose only interest is its children. -/
  | block (label : String) (children : List Tree)
  /-- A construct with no type name inside. -/
  | leaf (label : String)
  /-- A class, interface, trait or enum. -/
  | classDecl (declaration : ClassDeclaration Tree)
  /-- A function, method, closure or arrow function. -/
  | function (name : Option Text) (parameters body : List Tree) (returnType : List Name)
  /-- A parameter of a function. -/
  | parameter (name : Text) (type : List Name)
  /-- A property of a class with the defaults of its elements. -/
  | property (type : List Name) (elements : List Tree)
  /-- A block whose errors are caught. -/
  | tryCatch (body catches finallyBody : List Tree)
  /-- One catch clause. -/
  | catchClause (types : List Name) (body : List Tree)
  /-- The creation of an object. -/
  | new (what : Created Tree) (arguments : List Tree)
  /-- A member looked up on a type. There is no scope where the type is
  relative or computed. -/
  | staticLookup (scope : Option Name)
  /-- A type test. -/
  | instanceOf (subject : Option Tree) (type : Option Name)
  /-- A conditional statement or clause. -/
  | ifThen (test : Option Tree) (body alternate : List Tree)
  /-- A conditional expression. -/
  | ternary (test whenTrue whenFalse : Option Tree)
  /-- An error being thrown. -/
  | throw (what : Option Tree)
  /-- A return from a function. -/
  | return (value : Option Tree)
  /-- Expressions being printed. -/
  | echo (expressions : List Tree)
  /-- A prefix operator. -/
  | unary (what : Option Tree)
  /-- An infix operator. -/
  | binary (left right : Option Tree)
  /-- An assignment of any kind. -/
  | assign (left right : Option Tree)
  /-- An array element; only its value is kept. -/
  | entry (value : Option Tree)
  /-- A call. -/
  | call (callee : Option Tree) (arguments : List Tree)
  /-- A member looked up on an object. -/
  | propertyLookup (what : Option Tree)
  /-- An expression used as a statement. -/
  | statement (expression : Option Tree)

instance : Inhabited Tree := ⟨.leaf ""⟩

end Namespacer
