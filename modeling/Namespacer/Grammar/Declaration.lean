import Namespacer.Grammar.Expression

/-!
# Declarations

Functions, classes and their members, constants.
-/

namespace Namespacer.Grammar

open Reader

/-- The end of a statement: a semicolon, or a close tag, which stays. -/
def endOfStatement : Reader Unit := do
  if ← accept .semicolon then return ()
  match ← peek with
  | some .closeTag | none => return ()
  | _ => failure

/-- Passes over tokens up to the end of a statement. -/
def skipStatement : (rounds : Nat) → Reader Unit
  | 0 => failure
  | rounds + 1 => do
    match ← peek with
    | some (.symbol .semicolon) => discard take
    | some .closeTag | none => return ()
    | _ =>
      discard take
      skipStatement rounds

/-- Passes over tokens up to the brace that closes the current ones. -/
def skipBraces : (rounds depth : Nat) → Reader Unit
  | 0, _ => failure
  | rounds + 1, depth => do
    let token ← take
    match token.lexeme with
    | .symbol .openBrace => skipBraces rounds (depth + 1)
    | .symbol .closeBrace => if depth ≤ 1 then return () else skipBraces rounds (depth - 1)
    | _ => skipBraces rounds depth

/-- A function with a name. -/
def functionDefinition (g : Nesting) : Reader Node := do
  let start ← position
  let attributes ← attributes
  keyword .function_
  let mark ← referenceMark
  let name ← name
  let parameters ← parameters g
  let type ← returnType
  let body ← body g
  node "function_definition" start
    (attributes ++ mark ++ [name.withField "name", parameters] ++ type ++ [body])

/-- One constant with its value. -/
def constElement (g : Nesting) : Reader Node := do
  let start ← position
  let name ← name
  symbol .assign
  let value ← g.expression Level.lowest
  node "const_element" start [name, value]

/-- Constants after their modifiers. -/
def constDeclaration (g : Nesting) (start : Nat) (before : List Node) : Reader Node := do
  keyword .const_
  let type ←
    if (← isWord) && (← isSymbol .assign 1) then pure []
    else pure [(← typeExpression).withField "type"]
  let elements ← commaSeparated (constElement g)
  endOfStatement
  node "const_declaration" start (before ++ type ++ elements)

/-- A method after its modifiers. -/
def methodDeclaration (g : Nesting) (start : Nat) (before : List Node) : Reader Node := do
  keyword .function_
  let mark ← referenceMark
  let name ← name
  let parameters ← parameters g
  let type ← returnType
  let body ←
    if ← isSymbol .openBrace then pure [← body g]
    else do
      endOfStatement
      pure []
  node "method_declaration" start
    (before ++ mark ++ [name.withField "name", parameters] ++ type ++ body)

/-- A property with its default value. -/
def propertyElement (g : Nesting) : Reader Node := do
  let start ← position
  let name ← plainVariable
  let default ←
    if ← accept .assign then pure [(← g.expression Level.lowest).withField "default_value"]
    else pure []
  node "property_element" start (name.withField "name" :: default)

/-- Properties after their modifiers. Hooks take the place of the semicolon. -/
def propertyDeclaration (g : Nesting) (start : Nat) (before : List Node) : Reader Node := do
  let type ←
    match ← peek with
    | some .variable => pure []
    | _ => pure [(← typeExpression).withField "type"]
  let elements ← commaSeparated (propertyElement g)
  if ← isSymbol .openBrace then
    let hooks ← g.members
    node "property_declaration" start (before ++ type ++ elements ++ [hooks])
  else
    endOfStatement
    node "property_declaration" start (before ++ type ++ elements)

/-- The traits that a class uses. Nothing looks into their list. -/
def useDeclaration : Reader Node := do
  let start ← position
  keyword .use_
  discard (commaSeparated qualifiedName)
  if ← accept .openBrace then skipBraces ((← get).tokens.length + 1) 1 else endOfStatement
  node "use_declaration" start []

/-- A case of an enum. -/
def enumCase (g : Nesting) (start : Nat) (before : List Node) : Reader Node := do
  keyword .case_
  let name ← name
  let value ←
    if ← accept .assign then pure [(← g.expression Level.lowest).withField "value"] else pure []
  endOfStatement
  node "enum_case" start (before ++ [name.withField "name"] ++ value)

/-- A hook of a property: a name and what it does. -/
def propertyHook (g : Nesting) (start : Nat) (before : List Node) : Reader Node := do
  let mark ← referenceMark
  let name ← name
  let parameters ← if ← isSymbol .openParen then pure [← parameters g] else pure []
  let body ←
    if ← accept .doubleArrow then do
      let value ← g.expression Level.lowest
      endOfStatement
      pure [value.withField "body"]
    else if ← isSymbol .openBrace then pure [← body g]
    else do
      endOfStatement
      pure []
  node "property_hook" start (before ++ mark ++ [name] ++ parameters ++ body)

/-- Whether a hook of a property begins here. -/
def isHook : Reader Bool := do
  let skip := if ← isSymbol .ampersand then 1 else 0
  let folded ← spelling skip
  if folded == "get".toList || folded == "set".toList then
    match ← peek (skip + 1) with
    | some (.symbol .openBrace) | some (.symbol .openParen) | some (.symbol .doubleArrow)
    | some (.symbol .semicolon) => return true
    | _ => return false
  return false

/-- A member of a class, an enum or a list of hooks. -/
def memberDeclaration (g : Nesting) : Reader Node := do
  if ← isKeyword .use_ then useDeclaration
  else
    let start ← position
    let attributes ← attributes
    let modifiers ← modifiers
    let before := attributes ++ modifiers
    if ← isHook then propertyHook g start before
    else
      match ← keyword? with
      | some .const_ => constDeclaration g start before
      | some .function_ => methodDeclaration g start before
      | some .case_ => enumCase g start before
      | _ => propertyDeclaration g start before

/-- The kind of node for members between braces. -/
def memberListKind (members : List Node) : String :=
  if members.any (·.kind == "enum_case") then "enum_declaration_list"
  else if members.any (·.kind == "property_hook") then "property_hook_list"
  else "declaration_list"

/-- Members between braces. -/
def memberList (g : Nesting) : Reader Node := do
  let start ← position
  symbol .openBrace
  let members ← collect do
    if ← isSymbol .closeBrace then return none
    return some (← memberDeclaration g)
  symbol .closeBrace
  node (memberListKind members) start members

/-- A class, interface or trait after its modifiers. -/
def classDeclaration (g : Nesting) (kind : String) (start : Nat) (before : List Node) :
    Reader Node := do
  discard take
  let name ← name
  let base ← typeClause .extends_ "base_clause"
  let interfaces ← typeClause .implements_ "class_interface_clause"
  let body ← classBody g
  node kind start (before ++ [name.withField "name"] ++ base ++ interfaces ++ [body])

/-- An enum after its attributes. -/
def enumDeclaration (g : Nesting) (start : Nat) (before : List Node) : Reader Node := do
  keyword .enum_
  let name ← name
  let backing ← if ← accept .colon then pure [← typeExpression] else pure []
  let interfaces ← typeClause .implements_ "class_interface_clause"
  let .node mark _ named _ bodyStart bodyStop members ← g.members
  let body := .node mark "enum_declaration_list" named (some "body") bodyStart bodyStop members
  node "enum_declaration" start (before ++ [name.withField "name"] ++ backing ++ interfaces ++
    [body])

/-- Whether a declaration with modifiers begins here. -/
def isClassHead : Reader Bool := do
  match ← keyword? with
  | some .class_ | some .interface_ | some .trait_ => isWord 1
  | some .enum_ => return (← isWord 1) && !(← isKeyword .extends_ 1) && !(← isKeyword .implements_ 1)
  | some .abstract_ | some .final_ | some .readonly_ =>
    match ← keyword? 1 with
    | some .class_ | some .abstract_ | some .final_ | some .readonly_ => return true
    | _ => return false
  | _ => return false

/-- A class, interface, trait or enum. -/
def typeDeclaration (g : Nesting) (start : Nat) (attributes : List Node) : Reader Node := do
  let before := attributes ++ (← modifiers)
  match ← keyword? with
  | some .class_ => classDeclaration g "class_declaration" start before
  | some .interface_ => classDeclaration g "interface_declaration" start before
  | some .trait_ => classDeclaration g "trait_declaration" start before
  | some .enum_ => enumDeclaration g start before
  | _ => failure

end Namespacer.Grammar
