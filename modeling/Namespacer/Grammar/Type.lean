import Namespacer.Grammar.Parser

/-!
# Names and types

The parts of the grammar that do not nest expressions: qualified names,
variables, type expressions and attributes.
-/

namespace Namespacer.Grammar

open Reader

/-- Names after separators, up to the last one. -/
def nameSegments : Reader (List Node) := collect do
  if (← isSymbol .backslash) && (← isWord 1) then
    symbol .backslash
    return some (← name)
  return none

/-- The node of a name with its segments; several segments make all but the
last one the namespace of the name. -/
def qualify (kind : String) (start : Nat) (segments : List Node) : Reader Node := do
  let some last := segments.getLast? | failure
  let some first := segments.head? | failure
  match segments.dropLast with
  | [] => node kind start [last]
  | outer =>
    let stop := ((outer.getLast?).map Concrete.stop).getD first.stop
    let space := .node () "namespace_name" true (some "prefix") first.start stop outer
    node kind start [space, last]

/-- A name, qualified or not, or a name relative to the current namespace. -/
def qualifiedName : Reader Node := do
  let start ← position
  if ← isSymbol .backslash then
    qualify "qualified_name" start (← nameSegments)
  else if (← isKeyword .namespace_) && (← isSymbol .backslash 1) then
    keyword .namespace_
    qualify "relative_name" start (← nameSegments)
  else
    let first ← name
    match ← nameSegments with
    | [] => return first
    | rest => qualify "qualified_name" start (first :: rest)

/-- The name of a namespace. -/
def namespaceName : Reader Node := do
  let start ← position
  let first ← name
  node "namespace_name" start (first :: (← nameSegments))

/-- A variable with a plain name. -/
def plainVariable : Reader Node := do
  match ← peek with
  | some .variable => leaf "variable_name"
  | _ => failure

/-- Built-in types that are recognized in exactly this spelling. -/
def exactTypes : List Text :=
  ["array", "bool", "float", "int", "string", "object", "null"].map String.toList

/-- Built-in types that are recognized in any letter case. -/
def foldedTypes : List Text :=
  ["callable", "iterable", "void", "mixed", "true", "false"].map String.toList

/-- A type of one name. The type without values may only be returned. -/
def namedType (isReturned : Bool) : Reader Node := do
  let start ← position
  let isSeparatedNext ← isSymbol .backslash 1
  match ← peek with
  | some (.word text _) =>
    let folded := text.map Char.toLower
    if isSeparatedNext then node "named_type" start [← qualifiedName]
    else if exactTypes.contains text || foldedTypes.contains folded then leaf "primitive_type"
    else if isReturned && folded = "never".toList then leaf "bottom_type"
    else node "named_type" start [← qualifiedName]
  | some (.symbol .backslash) => node "named_type" start [← qualifiedName]
  | _ => failure

/-- Whether an ampersand joins two types rather than marking a reference. -/
def joinsTypes : Reader Bool := do
  if !(← isSymbol .ampersand) then return false
  match ← peek 1 with
  | some .variable | some (.symbol .ellipsis) | some (.symbol .ampersand) => return false
  | _ => return true

/-- Types joined by ampersands. -/
def intersection (isReturned : Bool) : Reader Node := do
  let start ← position
  let first ← namedType isReturned
  let rest ← collect do
    if ← joinsTypes then
      symbol .ampersand
      return some (← namedType isReturned)
    return none
  if rest.isEmpty then return first
  node "intersection_type" start (first :: rest)

/-- One alternative of a type: an intersection, possibly in parentheses. The
flag tells whether there were parentheses. -/
def typeAlternative (isReturned : Bool) : Reader (Node × Bool) := do
  if ← accept .openParen then
    let inner ← intersection isReturned
    symbol .closeParen
    return (inner, true)
  return (← intersection isReturned, false)

/-- A type expression. -/
def typeExpression (isReturned : Bool := false) : Reader Node := do
  let start ← position
  if ← accept .question then
    node "optional_type" start [← namedType isReturned]
  else
    let first ← typeAlternative isReturned
    let rest ← collect do
      if ← accept .bitOr then return some (← typeAlternative isReturned)
      return none
    let alternatives := first :: rest
    if alternatives.any (·.2) then
      node "disjunctive_normal_form_type" start (alternatives.map (·.1))
    else if rest.isEmpty then return first.1
    else node "union_type" start (alternatives.map (·.1))

/-- The type after a colon, as the return type of a function. -/
def returnType : Reader (List Node) := do
  if ← accept .colon then
    return [(← typeExpression true).withField "return_type"]
  return []

/-- Passes over tokens up to the end of the current brackets. The number counts
the brackets that are open. -/
def skipBrackets : (rounds depth : Nat) → Reader Unit
  | 0, _ => failure
  | rounds + 1, depth => do
    let token ← take
    match token.lexeme with
    | .symbol .openBracket | .symbol .openAttribute => skipBrackets rounds (depth + 1)
    | .symbol .closeBracket => if depth ≤ 1 then return () else skipBrackets rounds (depth - 1)
    | _ => skipBrackets rounds depth

/-- Attributes, if there are any. Nothing looks into them. -/
def attributes : Reader (List Node) := do
  let start ← position
  let groups ← collect do
    if ← accept .openAttribute then
      skipBrackets ((← get).tokens.length + 1) 1
      return some ()
    return none
  if groups.isEmpty then return []
  return [(← node "attribute_list" start []).withField "attributes"]

/-- The kind of node for a modifier of a declaration. -/
def modifierKind? : Keyword → Option String
  | .public_ | .protected_ | .private_ => some "visibility_modifier"
  | .static_ => some "static_modifier"
  | .abstract_ => some "abstract_modifier"
  | .final_ => some "final_modifier"
  | .readonly_ => some "readonly_modifier"
  | .var_ => some "var_modifier"
  | _ => none

/-- The modifiers of a declaration. A visibility may be limited to writing. -/
def modifiers : Reader (List Node) := collect do
  match (← keyword?).bind modifierKind? with
  | none => return none
  | some kind =>
    let start ← position
    discard take
    if kind == "visibility_modifier" && (← isSymbol .openParen) && (← isSymbol .closeParen 2) &&
        (← spelling 1) == "set".toList then
      discard take
      discard take
      discard take
    return some (← node kind start [])

end Namespacer.Grammar
