import Namespacer.Grammar.Type

/-!
# Expressions

Operators bind by levels. An expression of a level is an operand followed by
operators of that level or above. Assignments are operands: their left side is
always a single variable-like operand, whatever stands before it.

The readers here do not call themselves. Where an expression or a statement
nests inside another, they use the grammar `g` that they are given.
-/

namespace Namespacer.Grammar

open Reader

/-- Who gets the clauses that follow a conditional. -/
inductive Clauses where
  /-- The conditional itself: it is not the body of another one. -/
  | own
  /-- The conditional around it, whose body it is. -/
  | outer
  /-- The conditional itself, although it is the body of another one. -/
  | inner
deriving DecidableEq, Repr

/-- The readers of the constructs that nest in each other. -/
structure Nesting where
  /-- An expression whose operators have at least the given level. -/
  expression : (level : Nat) → Reader Node
  /-- A statement. -/
  statement : Clauses → Reader Node
  /-- The members of a class with their braces. -/
  members : Reader Node

namespace Level

/-- Everything, as between parentheses. -/
def lowest : Nat := 0

/-- The right side of an assignment. -/
def assigned : Nat := 5

/-- Conditional expressions. -/
def conditional : Nat := 5

/-- Type tests, which bind tighter than prefix operators. -/
def typeTest : Nat := 20

/-- An operand alone. -/
def operand : Nat := 21

end Level

/-- The level of an infix operator, and whether it groups to the right. -/
def infixLevel? : Lexeme → Option (Nat × Bool)
  | .word _ (some .or_) => some (1, false)
  | .word _ (some .xor_) => some (2, false)
  | .word _ (some .and_) => some (3, false)
  | .symbol .coalesce => some (6, true)
  | .symbol .logicalOr => some (7, false)
  | .symbol .logicalAnd => some (8, false)
  | .symbol .bitOr => some (9, false)
  | .symbol .bitXor => some (10, false)
  | .symbol .ampersand => some (11, false)
  | .symbol .equal | .symbol .notEqual | .symbol .lessGreater | .symbol .identical
  | .symbol .notIdentical | .symbol .spaceship => some (12, false)
  | .symbol .less | .symbol .greater | .symbol .lessEqual | .symbol .greaterEqual =>
    some (13, false)
  | .symbol .pipe => some (14, false)
  | .symbol .dot => some (15, false)
  | .symbol .shiftLeft | .symbol .shiftRight => some (16, false)
  | .symbol .plus | .symbol .minus => some (17, false)
  | .symbol .times | .symbol .divide | .symbol .modulo => some (18, false)
  | .symbol .power => some (19, true)
  | _ => none

/-- The spelling of a lexeme that is an operator. -/
def operatorKind : Lexeme → String
  | .word text _ => String.ofList (text.map Char.toLower)
  | .symbol symbol => symbol.spelling
  | _ => ""

/-- Whether a symbol is an assignment combined with an operator. -/
def isAugmented : Symbol → Bool
  | .powerAssign | .shiftLeftAssign | .shiftRightAssign | .coalesceAssign | .plusAssign
  | .minusAssign | .timesAssign | .divideAssign | .concatAssign | .moduloAssign
  | .bitAndAssign | .bitOrAssign | .bitXorAssign => true
  | _ => false

/-- Words that make a cast when they stand alone in parentheses. -/
def castTypes : List Text :=
  ["array", "binary", "bool", "boolean", "double", "float", "int", "integer", "object",
    "real", "string", "unset", "void"].map String.toList

/-- An expression between parentheses. -/
def parenthesized (g : Nesting) : Reader Node := do
  let start ← position
  symbol .openParen
  let inner ← g.expression Level.lowest
  symbol .closeParen
  node "parenthesized_expression" start [inner]

/-- A node with a mark of reference before it. -/
def byReference (inner : Reader Node) : Reader Node := do
  let start ← position
  symbol .ampersand
  node "by_ref" start [← inner]

/-- A variable whose name is a variable or an expression again. The number
bounds the dollar signs. -/
def computedVariable (g : Nesting) : (rounds : Nat) → Reader Node
  | 0 => failure
  | rounds + 1 => do
    let start ← position
    match ← peek with
    | some .variable => leaf "variable_name"
    | _ =>
      symbol .dollar
      if ← accept .openBrace then
        let inner ← g.expression Level.lowest
        symbol .closeBrace
        node "dynamic_variable_name" start [inner]
      else node "dynamic_variable_name" start [← computedVariable g rounds]

/-- A variable. -/
def anyVariable (g : Nesting) : Reader Node := do
  computedVariable g ((← get).tokens.length + 1)

/-! ## Arguments and elements -/

/-- An expression spread over the places of a list. -/
def unpacking (g : Nesting) : Reader Node := do
  let start ← position
  symbol .ellipsis
  node "variadic_unpacking" start [← g.expression Level.lowest]

/-- An argument of a call. -/
def argument (g : Nesting) : Reader Node := do
  let start ← position
  let label ←
    if (← isWord) && (← isSymbol .colon 1) then
      let label ← name
      symbol .colon
      pure [label.withField "name"]
    else pure []
  let mark ← if ← isSymbol .ampersand then pure [← leaf "reference_modifier"] else pure []
  let value ← if ← isSymbol .ellipsis then unpacking g else g.expression Level.lowest
  node "argument" start (label ++ mark ++ [value])

/-- The arguments of a call. Three dots alone stand for the call itself. -/
def arguments (g : Nesting) : Reader Node := do
  let start ← position
  symbol .openParen
  if (← isSymbol .ellipsis) && (← isSymbol .closeParen 1) then
    let placeholder ← leaf "variadic_placeholder"
    symbol .closeParen
    node "arguments" start [placeholder]
  else
    let items ← listUntil .closeParen do return [← argument g]
    node "arguments" start items

/-- A value of an array: an expression or a reference to a variable. -/
def elementValue (g : Nesting) : Reader Node := do
  if ← isSymbol .ampersand then byReference (g.expression Level.operand)
  else g.expression Level.lowest

/-- A key with its value, or a value alone. -/
def keyedValue (g : Nesting) : Reader (List Node) := do
  let first ← elementValue g
  if ← accept .doubleArrow then return [first, ← elementValue g]
  return [first]

/-- An element of an array. -/
def element (g : Nesting) : Reader Node := do
  let start ← position
  let parts ← if ← isSymbol .ellipsis then pure [← unpacking g] else keyedValue g
  node "array_element_initializer" start parts

/-- The elements of an array up to a closing symbol; places may be left empty. -/
def elements (g : Nesting) (close : Symbol) : Reader (List Node) :=
  listUntil close do
    if ← isSymbol .comma then return [] else return [← element g]

mutual

/-- An array that is assigned to, as the list of its targets. Anything else
stays as it is. -/
def asTarget : Node → Node
  | .node mark kind named field start stop children =>
    if kind = "array_creation_expression" then
      .node mark "list_literal" named field start stop (asTargets children)
    else .node mark kind named field start stop children

/-- The targets of the elements of an array. -/
def asTargets : List Node → List Node
  | [] => []
  | .node _ _ _ _ _ _ parts :: rest => asTargetParts parts ++ asTargets rest

/-- A target with its key, if it has one. -/
def asTargetParts : List Node → List Node
  | [] => []
  | [value] => [asTarget value]
  | key :: next :: rest => key :: asTargetParts (next :: rest)

end

/-- An array in brackets. -/
def bracketArray (g : Nesting) : Reader Node := do
  let start ← position
  symbol .openBracket
  let items ← elements g .closeBracket
  node "array_creation_expression" start items

/-- An array after its keyword. -/
def keywordArray (g : Nesting) : Reader Node := do
  let start ← position
  keyword .array_
  symbol .openParen
  let items ← elements g .closeParen
  node "array_creation_expression" start items

/-- A list of targets after its keyword. -/
def keywordList (g : Nesting) : Reader Node := do
  let start ← position
  keyword .list_
  symbol .openParen
  let items ← elements g .closeParen
  node "list_literal" start (asTargets items)

/-! ## Functions -/

/-- A parameter of a function. -/
def parameter (g : Nesting) : Reader Node := do
  let start ← position
  let attributes ← attributes
  let modifiers ← modifiers
  let type ←
    match ← peek with
    | some (.word _ _) | some (.symbol .backslash) | some (.symbol .question)
    | some (.symbol .openParen) => pure [(← typeExpression).withField "type"]
    | _ => pure []
  let mark ←
    if ← isSymbol .ampersand then pure [(← leaf "reference_modifier").withField "reference_modifier"]
    else pure []
  let isVariadic ← accept .ellipsis
  let name ← plainVariable
  let default ←
    if ← accept .assign then pure [(← g.expression Level.lowest).withField "default_value"]
    else pure []
  let hooks ← if ← isSymbol .openBrace then pure [← g.members] else pure []
  let kind :=
    if !modifiers.isEmpty then "property_promotion_parameter"
    else if isVariadic then "variadic_parameter"
    else "simple_parameter"
  node kind start
    (attributes ++ modifiers ++ type ++ mark ++ [name.withField "name"] ++ default ++ hooks)

/-- The parameters of a function. -/
def parameters (g : Nesting) : Reader Node := do
  let start ← position
  symbol .openParen
  let items ← listUntil .closeParen do return [← parameter g]
  return (← node "formal_parameters" start items).withField "parameters"

/-- A mark of reference before the name or parameters of a function. -/
def referenceMark : Reader (List Node) := do
  if ← isSymbol .ampersand then
    return [(← leaf "reference_modifier").withField "reference_modifier"]
  return []

/-- Statements between braces, as the body of something. -/
def body (g : Nesting) : Reader Node := do
  unless ← isSymbol .openBrace do failure
  return (← g.statement .own).withField "body"

/-- The variables that a closure takes with it. -/
def closureVariables (g : Nesting) : Reader (List Node) := do
  let start ← position
  if ← acceptKeyword .use_ then
    symbol .openParen
    let items ← listUntil .closeParen do
      if ← isSymbol .ampersand then return [← byReference (anyVariable g)]
      return [← anyVariable g]
    return [← node "anonymous_function_use_clause" start items]
  return []

/-- A closure or arrow function, after attributes that were read before. -/
def closure (g : Nesting) (start : Nat) (attributes : List Node) : Reader Node := do
  let modifier ←
    if ← isKeyword .static_ then pure [(← leaf "static_modifier").withField "static_modifier"]
    else pure []
  if ← acceptKeyword .fn_ then
    let mark ← referenceMark
    let parameters ← parameters g
    let type ← returnType
    symbol .doubleArrow
    let body ← g.expression Level.lowest
    node "arrow_function" start
      (attributes ++ modifier ++ mark ++ [parameters] ++ type ++ [body.withField "body"])
  else
    keyword .function_
    let mark ← referenceMark
    let parameters ← parameters g
    let captured ← closureVariables g
    let type ← returnType
    let body ← body g
    node "anonymous_function" start
      (attributes ++ modifier ++ mark ++ [parameters] ++ captured ++ type ++ [body])

/-! ## Members and calls -/

/-- The name of a member after an arrow. -/
def memberName (g : Nesting) : Reader Node := do
  if ← accept .openBrace then
    let inner ← g.expression Level.lowest
    symbol .closeBrace
    return inner.withField "name"
  if ← isWord then return (← name).withField "name"
  return (← anyVariable g).withField "name"

/-- A member of an object, called or not. -/
def member (g : Nesting) (calls : Bool) (kind : String) (object : Node) : Reader Node := do
  discard take
  let name ← memberName g
  let children := [object.withField "object", name]
  if calls && (← isSymbol .openParen) then
    let arguments ← arguments g
    node (kind ++ "member_call_expression") object.start
      (children ++ [arguments.withField "arguments"])
  else node (kind ++ "member_access_expression") object.start children

/-- A member of a type, called or not. -/
def scopedMember (g : Nesting) (calls : Bool) (scope : Node) : Reader Node := do
  symbol .scope
  let isName ← isWord
  let isBraced ← isSymbol .openBrace
  let name ← memberName g
  if calls && (← isSymbol .openParen) then
    let arguments ← arguments g
    node "scoped_call_expression" scope.start
      [scope.withField "scope", name, arguments.withField "arguments"]
  else if isName || isBraced then
    let .node mark kind named _ start stop children := name
    node "class_constant_access_expression" scope.start
      [scope, .node mark kind named none start stop children]
  else node "scoped_property_access_expression" scope.start [scope.withField "scope", name]

/-- An element of an array or string. -/
def subscript (g : Nesting) (array : Node) : Reader Node := do
  symbol .openBracket
  let index ← if ← isSymbol .closeBracket then pure [] else pure [← g.expression Level.lowest]
  symbol .closeBracket
  node "subscript_expression" array.start (array :: index)

/-- Extends an operand by a member, an element or a call. -/
def postfixStep (g : Nesting) (operand : Node) : Reader (Option Node) := do
  match ← peek with
  | some (.symbol .arrow) => return some (← member g true "" operand)
  | some (.symbol .nullsafeArrow) => return some (← member g true "nullsafe_" operand)
  | some (.symbol .scope) => return some (← scopedMember g true operand)
  | some (.symbol .openBracket) => return some (← subscript g operand)
  | some (.symbol .openParen) =>
    let arguments ← arguments g
    return some (← node "function_call_expression" operand.start
      [operand.withField "function", arguments.withField "arguments"])
  | _ => return none

/-- Extends the designator of a class by a member or an element, but not by a
call. -/
def designatorStep (g : Nesting) (designator : Node) : Reader (Option Node) := do
  match ← peek with
  | some (.symbol .arrow) => return some (← member g false "" designator)
  | some (.symbol .nullsafeArrow) => return some (← member g false "nullsafe_" designator)
  | some (.symbol .scope) => return some (← scopedMember g false designator)
  | some (.symbol .openBracket) => return some (← subscript g designator)
  | _ => return none

/-- What designates a class: a name, a variable with members, or an expression
in parentheses. -/
def classDesignator (g : Nesting) : Reader Node := do
  match ← peek with
  | some (.symbol .openParen) => parenthesized g
  | some .variable | some (.symbol .dollar) => extend (designatorStep g) (← anyVariable g)
  | _ =>
    let name ← qualifiedName
    if ← isSymbol .scope then extend (designatorStep g) name else return name

/-- Names of types after a keyword. -/
def typeClause (word : Keyword) (kind : String) : Reader (List Node) := do
  let start ← position
  if ← acceptKeyword word then
    let names ← commaSeparated qualifiedName
    return [← node kind start names]
  return []

/-- The members of a class, as its body. Hooks belong to properties alone. -/
def classBody (g : Nesting) : Reader Node := do
  let body ← g.members
  if body.kind == "property_hook_list" then failure
  return body.withField "body"

/-- The class that an object creation declares on the spot. -/
def anonymousClass (g : Nesting) : Reader Node := do
  let start ← position
  let attributes ← attributes
  let modifiers ← modifiers
  keyword .class_
  let arguments ← if ← isSymbol .openParen then pure [← arguments g] else pure []
  let base ← typeClause .extends_ "base_clause"
  let interfaces ← typeClause .implements_ "class_interface_clause"
  let body ← classBody g
  node "anonymous_class" start
    (attributes ++ modifiers ++ arguments ++ base ++ interfaces ++ [body])

/-- Whether an object creation declares a class on the spot. -/
def declaresClass : Reader Bool := do
  if (← isSymbol .openAttribute) || (← isKeyword .class_) then return true
  return ((← keyword?).bind modifierKind?).isSome && (← isWord 1)

/-- The creation of an object. -/
def creation (g : Nesting) : Reader Node := do
  let start ← position
  keyword .new_
  if ← declaresClass then
    let declared ← anonymousClass g
    node "object_creation_expression" start [declared]
  else
    let designator ← classDesignator g
    let arguments ← if ← isSymbol .openParen then pure [← arguments g] else pure []
    node "object_creation_expression" start (designator :: arguments)

/-! ## Operands -/

/-- The arms of a case analysis. -/
def matchArm (g : Nesting) : Reader Node := do
  let start ← position
  if (← isKeyword .default_) && ((← isSymbol .doubleArrow 1) || (← isSymbol .comma 1)) then
    keyword .default_
    discard (accept .comma)
    symbol .doubleArrow
    let value ← g.expression Level.lowest
    node "match_default_expression" start [value.withField "return_expression"]
  else
    let conditions ← listUntil .doubleArrow do return [← g.expression Level.lowest]
    let list ← node "match_condition_list" start conditions
    let value ← g.expression Level.lowest
    node "match_conditional_expression" start
      [list.withField "conditional_expressions", value.withField "return_expression"]

/-- A case analysis by value. -/
def matchExpression (g : Nesting) : Reader Node := do
  let start ← position
  keyword .match_
  let condition ← parenthesized g
  let opening ← position
  symbol .openBrace
  let arms ← listUntil .closeBrace do return [← matchArm g]
  let block ← node "match_block" opening arms
  node "match_expression" start [condition.withField "condition", block.withField "body"]

/-- Whether an expression cannot begin here. -/
def endsExpression : Option Lexeme → Bool
  | none | some .closeTag | some (.symbol .semicolon) | some (.symbol .comma)
  | some (.symbol .closeParen) | some (.symbol .closeBracket) | some (.symbol .closeBrace) => true
  | _ => false

/-- A value handed out by a generator. -/
def yieldExpression (g : Nesting) : Reader Node := do
  let start ← position
  keyword .yield_
  if endsExpression (← peek) then node "yield_expression" start []
  else if (← spelling) == "from".toList then
    discard take
    node "yield_expression" start [← g.expression Level.lowest]
  else
    let opening ← position
    let parts ← keyedValue g
    node "yield_expression" start [← node "array_element_initializer" opening parts]

/-- A keyword with the whole expression to its right. -/
def swallowing (g : Nesting) (kind : String) : Reader Node := do
  let start ← position
  discard take
  node kind start [← g.expression Level.lowest]

/-- The kind of node for a keyword that takes the whole expression to its
right. -/
def swallowingKind? : Keyword → Option String
  | .print_ => some "print_intrinsic"
  | .throw_ => some "throw_expression"
  | .include_ => some "include_expression"
  | .include_once_ => some "include_once_expression"
  | .require_ => some "require_expression"
  | .require_once_ => some "require_once_expression"
  | _ => none

/-- A name or constant, or the type that a static member is looked up on. -/
def nameOperand (keyword : Option Keyword) : Reader Node := do
  let scopes ← isSymbol .scope 1
  match keyword with
  | some .self_ | some .static_ | some .parent_ =>
    if scopes then leaf "relative_scope" else qualifiedName
  | some .true_ | some .false_ =>
    if (← isSymbol .backslash 1) || scopes then qualifiedName else leaf "boolean"
  | some .null_ => if (← isSymbol .backslash 1) || scopes then qualifiedName else leaf "null"
  | _ => qualifiedName

/-- An operand that begins with a word. -/
def wordOperand (g : Nesting) (keyword : Option Keyword) : Reader Node := do
  match keyword with
  | some .new_ => extend (postfixStep g) (← creation g)
  | some .match_ =>
    if ← isSymbol .openParen 1 then extend (postfixStep g) (← matchExpression g)
    else extend (postfixStep g) (← nameOperand keyword)
  | some .array_ =>
    if ← isSymbol .openParen 1 then extend (postfixStep g) (← keywordArray g)
    else extend (postfixStep g) (← nameOperand keyword)
  | some .list_ =>
    if ← isSymbol .openParen 1 then keywordList g
    else extend (postfixStep g) (← nameOperand keyword)
  | some .yield_ => yieldExpression g
  | some .clone_ =>
    let start ← position
    discard take
    node "clone_expression" start [← g.expression Level.operand]
  | some .function_ | some .fn_ => closure g (← position) []
  | some .static_ =>
    if (← isKeyword .function_ 1) || (← isKeyword .fn_ 1) then closure g (← position) []
    else extend (postfixStep g) (← nameOperand keyword)
  | some other =>
    match swallowingKind? other with
    | some kind => swallowing g kind
    | none => extend (postfixStep g) (← nameOperand keyword)
  | none => extend (postfixStep g) (← nameOperand keyword)

/-- Whether a cast begins here. -/
def isCast : Reader Bool := do
  return (← isSymbol .openParen) && (← isSymbol .closeParen 2) &&
    castTypes.contains (← spelling 1)

/-- A cast. -/
def cast (g : Nesting) : Reader Node := do
  let start ← position
  symbol .openParen
  let type ← leaf "cast_type"
  symbol .closeParen
  let value ← g.expression Level.operand
  node "cast_expression" start [type.withField "type", value.withField "value"]

/-- A prefix operator with its operand. -/
def unary (g : Nesting) (symbol : Symbol) : Reader Node := do
  let start ← position
  let operator ← operator symbol.spelling
  let argument ← g.expression Level.typeTest
  node "unary_op_expression" start [operator, argument.withField "argument"]

/-- An increment or decrement before its variable. -/
def prefixUpdate (g : Nesting) (symbol : Symbol) : Reader Node := do
  let start ← position
  let operator ← operator symbol.spelling
  let argument ← g.expression Level.operand
  node "update_expression" start [operator, argument.withField "argument"]

/-- The kind of node for a literal of one token. -/
def literalKind? : Lexeme → Option String
  | .integer => some "integer"
  | .float => some "float"
  | .string => some "string"
  | .encapsed => some "encapsed_string"
  | .shell => some "shell_command_expression"
  | .heredoc => some "heredoc"
  | .nowdoc => some "nowdoc"
  | _ => none

/-- An operand that begins with a symbol. -/
def symbolOperand (g : Nesting) (symbol : Symbol) : Reader Node := do
  match symbol with
  | .dollar => extend (postfixStep g) (← anyVariable g)
  | .backslash => extend (postfixStep g) (← qualifiedName)
  | .openBracket => extend (postfixStep g) (← bracketArray g)
  | .openParen =>
    if ← isCast then cast g else extend (postfixStep g) (← parenthesized g)
  | .openAttribute =>
    let start ← position
    closure g start (← attributes)
  | .exclamation | .minus | .plus | .tilde => unary g symbol
  | .at =>
    let start ← position
    discard take
    node "error_suppression_expression" start [← g.expression Level.typeTest]
  | .increment | .decrement => prefixUpdate g symbol
  | _ => failure

/-- An operand with its members, elements and calls. -/
def primary (g : Nesting) : Reader Node := do
  match ← peek with
  | some .variable => extend (postfixStep g) (← anyVariable g)
  | some (.word _ keyword) => wordOperand g keyword
  | some (.symbol symbol) => symbolOperand g symbol
  | some lexeme =>
    match literalKind? lexeme with
    | some kind => extend (postfixStep g) (← leaf kind)
    | none => failure
  | none => failure

/-- Whether an operand of a kind can be assigned to. -/
def isAssignable : String → Bool
  | "variable_name" | "dynamic_variable_name" | "subscript_expression"
  | "member_access_expression" | "nullsafe_member_access_expression"
  | "scoped_property_access_expression" | "list_literal" | "array_creation_expression" => true
  | _ => false

/-- An assignment to an operand, if one follows. -/
def assignment (g : Nesting) (left : Node) : Reader Node := do
  match ← peek with
  | some (.symbol .assign) =>
    symbol .assign
    let kind ←
      if ← accept .ampersand then pure "reference_assignment_expression"
      else pure "assignment_expression"
    let right ← g.expression Level.assigned
    node kind left.start [(asTarget left).withField "left", right.withField "right"]
  | some (.symbol symbol) =>
    if isAugmented symbol then
      let operator ← operator symbol.spelling
      let right ← g.expression Level.assigned
      node "augmented_assignment_expression" left.start
        [left.withField "left", operator, right.withField "right"]
    else return left
  | _ => return left

/-- An operand: a primary one, one that is changed in place, or an assignment. -/
def operand (g : Nesting) : Reader Node := do
  let first ← primary g
  match ← peek with
  | some (.symbol .increment) =>
    let operator ← operator "++"
    node "update_expression" first.start [first.withField "argument", operator]
  | some (.symbol .decrement) =>
    let operator ← operator "--"
    node "update_expression" first.start [first.withField "argument", operator]
  | _ => if isAssignable first.kind then assignment g first else return first

/-! ## Operators -/

/-- Extends an expression by an operator of at least the given level. -/
def operatorStep (g : Nesting) (level : Nat) (left : Node) : Reader (Option Node) := do
  match ← peek with
  | some (.symbol .question) =>
    if Level.conditional < level then return none
    symbol .question
    let whenTrue ←
      if ← isSymbol .colon then pure []
      else pure [(← g.expression Level.lowest).withField "body"]
    symbol .colon
    let whenFalse ← g.expression (Level.conditional + 1)
    return some (← node "conditional_expression" left.start
      ([left.withField "condition"] ++ whenTrue ++ [whenFalse.withField "alternative"]))
  | some (.word _ (some .instanceof_)) =>
    if Level.typeTest < level then return none
    let operator ← operator "instanceof"
    let type ← classDesignator g
    return some (← node "binary_expression" left.start
      [left.withField "left", operator, type.withField "right"])
  | some lexeme =>
    match infixLevel? lexeme with
    | none => return none
    | some (own, groupsRight) =>
      if own < level then return none
      let operator ← operator (operatorKind lexeme)
      let right ← g.expression (if groupsRight then own else own + 1)
      return some (← node "binary_expression" left.start
        [left.withField "left", operator, right.withField "right"])
  | none => return none

/-- An expression whose operators have at least the given level. -/
def expression (g : Nesting) (level : Nat) : Reader Node := do
  extend (operatorStep g level) (← operand g)

/-- Expressions with commas between them; several of them nest to the right. -/
def nestSequence : List Node → Reader (List Node)
  | [] => return []
  | [only] => return [only]
  | first :: rest => do
    match ← nestSequence rest with
    | [] => return [first]
    | second :: _ => return [← node "sequence_expression" first.start [first, second]]

/-- One or more expressions with commas between them, as one node. -/
def sequenceExpression (g : Nesting) : Reader (List Node) := do
  nestSequence (← commaSeparated (g.expression Level.lowest))

end Namespacer.Grammar
