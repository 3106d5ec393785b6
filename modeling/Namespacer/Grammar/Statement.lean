import Namespacer.Grammar.Declaration
import Namespacer.Grammar.Lexer

/-!
# Statements

Statements, and the literal text between them. Literal text between a close
tag and the next open tag stands where a statement may stand. Behind the last
statement of a block without an end of its own it belongs to what encloses the
block.
-/

namespace Namespacer.Grammar

open Reader

/-! ## Literal text -/

/-- A close tag with the literal text and the open tag after it. -/
def interpolation : Reader Node := do
  let start ← position
  match ← peek with
  | some .closeTag =>
    let close ← leaf "php_end_tag"
    let html ← if (← peek) == some .html then pure [← leaf "text"] else pure []
    let opening ← if (← peek) == some .openTag then pure [← leaf "php_tag"] else pure []
    node "text_interpolation" start ([close] ++ html ++ opening)
  | _ => failure

/-- The keyword behind literal text, looked for behind at most `rounds`
tokens. -/
def keywordBehind : (rounds skip : Nat) → Reader (Option Keyword)
  | 0, _ => return none
  | rounds + 1, skip => do
    match ← peek skip with
    | some .closeTag | some .html | some .openTag => keywordBehind rounds (skip + 1)
    | some (.word _ keyword) => return keyword
    | _ => return none

/-- Literal text before one of some keywords. -/
def interpolationsBefore (keywords : List Keyword) : Reader (List Node) := do
  match ← keywordBehind ((← get).tokens.length + 1) 0 with
  | some found =>
    if keywords.contains found then
      collect do
        if (← peek) == some .closeTag then return some (← interpolation)
        return none
    else return []
  | none => return []

/-! ## Blocks -/

/-- Whether a keyword ends the statements before it. -/
def endsBlock : Keyword → Bool
  | .endif_ | .endwhile_ | .endfor_ | .endforeach_ | .endswitch_ | .enddeclare_ | .else_
  | .elseif_ | .case_ | .default_ => true
  | _ => false

/-- Statements and literal text up to the end of a block. -/
def statements (g : Nesting) : Reader (List Node) := collect do
  match ← peek with
  | none | some (.symbol .closeBrace) => return none
  | some .closeTag => return some (← interpolation)
  | some (.word _ (some keyword)) =>
    if endsBlock keyword then return none
    return some (← g.statement .own)
  | _ => return some (← g.statement .own)

/-- Statements between braces. -/
def compound (g : Nesting) : Reader Node := do
  let start ← position
  symbol .openBrace
  let items ← statements g
  symbol .closeBrace
  node "compound_statement" start items

/-- Splits the literal text at the end of a block from the block. -/
def splitTrailing (items : List Node) : List Node × List Node :=
  let isText := fun (n : Node) => n.kind == "text_interpolation"
  let trailing := (items.reverse.takeWhile isText).reverse
  (items.take (items.length - trailing.length), trailing)

/-- The statements after a colon, as a body, and the literal text that follows
them. -/
def colonBlock (g : Nesting) : Reader (Node × List Node) := do
  let start ← position
  symbol .colon
  let (items, trailing) := splitTrailing (← statements g)
  let stop := ((items.getLast?).map Concrete.stop).getD (start + 1)
  return (.node () "colon_block" true (some "body") start stop items, trailing)

/-- The body of a loop: statements after a colon up to a keyword, or a single
statement. -/
def loopBody (g : Nesting) (clauses : Clauses) (close : Keyword) : Reader (List Node) := do
  if ← isSymbol .colon then
    let (block, trailing) ← colonBlock g
    keyword close
    endOfStatement
    return block :: trailing
  return [(← g.statement clauses).withField "body"]

/-! ## Control flow -/

/-- A condition in parentheses. -/
def condition (g : Nesting) : Reader Node := do
  return (← parenthesized g).withField "condition"

/-- A further condition of a conditional without colons, with the literal text
before it. -/
def plainElseIf (g : Nesting) (clauses : Clauses) : Reader (Option (List Node)) := do
  let input ← get
  let before ← interpolationsBefore [.elseif_]
  let start ← position
  if !(← acceptKeyword .elseif_) then return none
  let condition ← condition g
  if ← isSymbol .colon then
    set input
    return none
  let body ← g.statement clauses
  let clause ← node "else_if_clause" start [condition, body.withField "body"]
  return some (before ++ [clause.withField "alternative"])

/-- The last clause of a conditional without colons, with the literal text
before it. -/
def plainElse (g : Nesting) (clauses : Clauses) : Reader (List Node) := do
  let input ← get
  let before ← interpolationsBefore [.else_]
  let start ← position
  if (← isKeyword .else_) && !(← isSymbol .colon 1) then
    keyword .else_
    let body ← g.statement clauses
    let clause ← node "else_clause" start [body.withField "body"]
    return before ++ [clause.withField "alternative"]
  set input
  return []

/-- A further clause of a conditional with colons, with the literal text
behind it. -/
def colonClause (g : Nesting) : Reader (Option (List Node)) := do
  let start ← position
  if ← acceptKeyword .elseif_ then
    let condition ← condition g
    let (block, trailing) ← colonBlock g
    let clause : Node :=
      .node () "else_if_clause" true (some "alternative") start block.stop [condition, block]
    return some (clause :: trailing)
  if ← acceptKeyword .else_ then
    let (block, trailing) ← colonBlock g
    let clause : Node :=
      .node () "else_clause" true (some "alternative") start block.stop [block]
    return some (clause :: trailing)
  return none

/-- A conditional without colons after its condition. The conditionals in its
body leave the clauses that follow to it, or take them, as `inside` says. -/
def plainIf (g : Nesting) (clauses inside : Clauses) (start : Nat) (condition : Node) :
    Reader Node := do
  let body ← g.statement inside
  let alternatives ←
    if clauses == .outer then pure []
    else do
      let conditions ← collect (plainElseIf g inside)
      let last ← plainElse g clauses
      pure (conditions.flatten ++ last)
  node "if_statement" start ([condition, body.withField "body"] ++ alternatives)

/-- A conditional. The clauses behind nested conditionals without braces belong
to the outermost one, unless that leaves a clause without a conditional. -/
def ifStatement (g : Nesting) (clauses : Clauses) : Reader Node := do
  let start ← position
  keyword .if_
  let condition ← condition g
  if ← isSymbol .colon then
    let (block, trailing) ← colonBlock g
    let alternatives ← collect (colonClause g)
    keyword .endif_
    endOfStatement
    node "if_statement" start ([condition, block] ++ trailing ++ alternatives.flatten)
  else if clauses == .own then
    let input ← get
    let whole ← plainIf g .own .outer start condition
    if (← plainElseIf g .inner).isSome || !(← plainElse g .inner).isEmpty then
      set input
      plainIf g .own .inner start condition
    else return whole
  else plainIf g clauses clauses start condition

/-- A loop with its condition first. -/
def whileStatement (g : Nesting) (clauses : Clauses) : Reader Node := do
  let start ← position
  keyword .while_
  let condition ← condition g
  let body ← loopBody g clauses .endwhile_
  node "while_statement" start (condition :: body)

/-- A loop with its condition last. -/
def doStatement (g : Nesting) : Reader Node := do
  let start ← position
  keyword .do_
  let body ← g.statement .own
  let between ← interpolationsBefore [.while_]
  keyword .while_
  let condition ← condition g
  endOfStatement
  node "do_statement" start ([body.withField "body"] ++ between ++ [condition])

/-- One of the three parts of a counting loop, up to a closing symbol. -/
def loopPart (g : Nesting) (field : String) (close : Symbol) : Reader (List Node) := do
  if ← accept close then return []
  let parts ← sequenceExpression g
  symbol close
  return parts.map (·.withField field)

/-- A counting loop. After a colon each statement is a body of its own. -/
def forStatement (g : Nesting) (clauses : Clauses) : Reader Node := do
  let start ← position
  keyword .for_
  symbol .openParen
  let first ← loopPart g "initialize" .semicolon
  let condition ← loopPart g "condition" .semicolon
  let update ← loopPart g "update" .closeParen
  let body ←
    if ← accept .colon then do
      let items ← statements g
      keyword .endfor_
      endOfStatement
      pure (items.map fun item =>
        if item.kind == "text_interpolation" then item else item.withField "body")
    else pure [(← g.statement clauses).withField "body"]
  node "for_statement" start (first ++ condition ++ update ++ body)

/-- The target of a loop over a collection. -/
def loopTarget (g : Nesting) : Reader Node := do
  if ← isSymbol .ampersand then byReference (g.expression Level.operand)
  else return asTarget (← g.expression Level.operand)

/-- A loop over a collection. -/
def foreachStatement (g : Nesting) (clauses : Clauses) : Reader Node := do
  let start ← position
  keyword .foreach_
  symbol .openParen
  let collection ← g.expression Level.lowest
  keyword .as_
  let opening ← position
  let first ← loopTarget g
  let target ←
    if ← accept .doubleArrow then do
      let value ← loopTarget g
      node "pair" opening [first, value]
    else pure first
  symbol .closeParen
  let body ← loopBody g clauses .endforeach_
  node "foreach_statement" start ([collection, target] ++ body)

/-- A case of a switch with its statements, and the literal text behind them. -/
def switchCase (g : Nesting) : Reader (Option (List Node)) := do
  let start ← position
  if (← peek) == some .closeTag then return some [← interpolation]
  let head ←
    if ← acceptKeyword .case_ then do
      let value ← g.expression Level.lowest
      pure (some ("case_statement", [value.withField "value"]))
    else if ← acceptKeyword .default_ then pure (some ("default_statement", []))
    else pure none
  match head with
  | none => return none
  | some (kind, value) =>
    unless ← accept .colon do symbol .semicolon
    let (items, trailing) := splitTrailing (← statements g)
    let clause ← node kind start (value ++ items)
    return some (clause :: trailing)

/-- A switch over a value. -/
def switchStatement (g : Nesting) : Reader Node := do
  let start ← position
  keyword .switch_
  let condition ← condition g
  let opening ← position
  let hasColon ← accept .colon
  unless hasColon do symbol .openBrace
  let cases ← collect (switchCase g)
  if hasColon then
    keyword .endswitch_
    endOfStatement
  else symbol .closeBrace
  let block ← node "switch_block" opening cases.flatten
  node "switch_statement" start [condition, block.withField "body"]

/-- One catch clause with the literal text before it. -/
def catchClause (g : Nesting) : Reader (Option (List Node)) := do
  let before ← interpolationsBefore [.catch_, .finally_]
  let start ← position
  if ← acceptKeyword .catch_ then
    symbol .openParen
    let opening ← position
    let first ← namedType false
    let rest ← collect do
      if ← accept .bitOr then return some (← namedType false)
      return none
    let types ← node "type_list" opening (first :: rest)
    let name ←
      if (← peek) == some .variable then pure [(← plainVariable).withField "name"] else pure []
    symbol .closeParen
    let body ← body g
    let clause ← node "catch_clause" start ([types.withField "type"] ++ name ++ [body])
    return some (before ++ [clause])
  if ← acceptKeyword .finally_ then
    let body ← body g
    let clause ← node "finally_clause" start [body]
    return some (before ++ [clause])
  return none

/-- A block whose errors are caught. -/
def tryStatement (g : Nesting) : Reader Node := do
  let start ← position
  keyword .try_
  let body ← body g
  let clauses ← collect (catchClause g)
  node "try_statement" start (body :: clauses.flatten)

/-! ## Simple statements -/

/-- A keyword with an optional expression after it. -/
def keywordStatement (g : Nesting) (kind : String) : Reader Node := do
  let start ← position
  discard take
  let value ← if endsExpression (← peek) then pure [] else pure [← g.expression Level.lowest]
  endOfStatement
  node kind start value

/-- Expressions being printed. -/
def echoStatement (g : Nesting) : Reader Node := do
  let start ← position
  keyword .echo_
  let values ← sequenceExpression g
  endOfStatement
  node "echo_statement" start values

/-- A jump to a label. -/
def gotoStatement : Reader Node := do
  let start ← position
  keyword .goto_
  let label ← name
  endOfStatement
  node "goto_statement" start [label]

/-- A label. -/
def labelStatement : Reader Node := do
  let start ← position
  let label ← name
  symbol .colon
  node "named_label_statement" start [label]

/-- The end of the program. -/
def exitStatement (g : Nesting) : Reader Node := do
  let start ← position
  keyword .exit_
  let value ←
    if ← accept .openParen then do
      let value ← if ← isSymbol .closeParen then pure [] else pure [← g.expression Level.lowest]
      symbol .closeParen
      pure value
    else pure []
  endOfStatement
  node "exit_statement" start value

/-- Variables being removed. -/
def unsetStatement (g : Nesting) : Reader Node := do
  let start ← position
  keyword .unset_
  symbol .openParen
  let targets ← listUntil .closeParen do return [← g.expression Level.lowest]
  endOfStatement
  node "unset_statement" start targets

/-- Variables taken from the outermost scope. -/
def globalDeclaration (g : Nesting) : Reader Node := do
  let start ← position
  keyword .global_
  let targets ← commaSeparated (anyVariable g)
  endOfStatement
  node "global_declaration" start targets

/-- A variable that keeps its value between calls. -/
def staticVariable (g : Nesting) : Reader Node := do
  let start ← position
  let name ← plainVariable
  let value ←
    if ← accept .assign then pure [(← g.expression Level.lowest).withField "value"] else pure []
  node "static_variable_declaration" start (name.withField "name" :: value)

/-- Variables that keep their values between calls. -/
def staticDeclaration (g : Nesting) : Reader Node := do
  let start ← position
  keyword .static_
  let targets ← commaSeparated (staticVariable g)
  endOfStatement
  node "function_static_declaration" start targets

/-- One directive to the compiler. -/
def declareDirective (g : Nesting) : Reader Node := do
  let start ← position
  discard name
  symbol .assign
  let value ← g.expression Level.lowest
  node "declare_directive" start [value]

/-- Directives to the compiler. -/
def declareStatement (g : Nesting) (clauses : Clauses) : Reader Node := do
  let start ← position
  keyword .declare_
  symbol .openParen
  let directives ← listUntil .closeParen do return [← declareDirective g]
  if ← accept .colon then
    let items ← statements g
    keyword .enddeclare_
    endOfStatement
    node "declare_statement" start (directives ++ items)
  else if (← isSymbol .semicolon) || (← peek) == some .closeTag then
    endOfStatement
    node "declare_statement" start directives
  else
    let body ← g.statement clauses
    node "declare_statement" start (directives ++ [body])

/-- A namespace, for the rest of the file or for a block. -/
def namespaceDefinition (g : Nesting) : Reader Node := do
  let start ← position
  keyword .namespace_
  let name ←
    if ← isWord then pure [(← namespaceName).withField "name"] else pure []
  if ← isSymbol .openBrace then
    let body ← body g
    node "namespace_definition" start (name ++ [body])
  else
    endOfStatement
    node "namespace_definition" start name

/-- Imports. Nothing looks into them. -/
def useStatement : Reader Node := do
  let start ← position
  keyword .use_
  skipStatement ((← get).tokens.length + 1)
  node "namespace_use_declaration" start []

/-- An expression used as a statement. -/
def expressionStatement (g : Nesting) : Reader Node := do
  let start ← position
  let value ← g.expression Level.lowest
  endOfStatement
  node "expression_statement" start [value]

/-- Whether a function with a name begins after `skip` tokens. -/
def isFunctionHead (skip : Nat := 0) : Reader Bool := do
  if !(← isKeyword .function_ skip) then return false
  if ← isSymbol .ampersand (skip + 1) then isWord (skip + 2) else isWord (skip + 1)

/-- A statement that begins with a word. -/
def wordStatement (g : Nesting) (clauses : Clauses) (keyword : Option Keyword) :
    Reader Node := do
  if ← isClassHead then typeDeclaration g (← position) []
  else if ← isFunctionHead then functionDefinition g
  else if ← isSymbol .colon 1 then labelStatement
  else
    match keyword with
    | some .if_ => ifStatement g clauses
    | some .while_ => whileStatement g clauses
    | some .do_ => doStatement g
    | some .for_ => forStatement g clauses
    | some .foreach_ => foreachStatement g clauses
    | some .switch_ => switchStatement g
    | some .try_ => tryStatement g
    | some .return_ => keywordStatement g "return_statement"
    | some .break_ => keywordStatement g "break_statement"
    | some .continue_ => keywordStatement g "continue_statement"
    | some .echo_ => echoStatement g
    | some .goto_ => gotoStatement
    | some .exit_ => exitStatement g
    | some .unset_ => unsetStatement g
    | some .global_ => globalDeclaration g
    | some .declare_ => declareStatement g clauses
    | some .const_ => constDeclaration g (← position) []
    | some .use_ => useStatement
    | some .namespace_ =>
      if ← isSymbol .backslash 1 then expressionStatement g else namespaceDefinition g
    | some .static_ =>
      if (← peek 1) == some .variable then staticDeclaration g else expressionStatement g
    | _ => expressionStatement g

/-- A statement after attributes. -/
def attributedStatement (g : Nesting) : Reader Node := do
  let start ← position
  let before ← get
  let attributes ← attributes
  if ← isClassHead then typeDeclaration g start attributes
  else if ← isFunctionHead then
    set before
    functionDefinition g
  else
    set before
    expressionStatement g

/-- A statement. -/
def statement (g : Nesting) (clauses : Clauses) : Reader Node := do
  match ← peek with
  | some (.symbol .openBrace) => compound g
  | some (.symbol .semicolon) => leaf "empty_statement"
  | some (.symbol .openAttribute) => attributedStatement g
  | some (.word _ keyword) => wordStatement g clauses keyword
  | _ => expressionStatement g

/-! ## Files -/

/-- The readers with a bound on the depth of nesting. -/
def nesting : (depth : Nat) → Nesting
  | 0 => ⟨fun _ => failure, fun _ => failure, failure⟩
  | depth + 1 =>
    let inner := nesting depth
    ⟨expression inner, statement inner, memberList inner⟩

/-- A whole file: literal text, an open tag and statements. -/
def program (g : Nesting) : Reader Node := do
  let html ← if (← peek) == some .html then pure [← leaf "text"] else pure []
  let opening ← if (← peek) == some .openTag then pure [← leaf "php_tag"] else pure []
  let items ← statements g
  if (← get).tokens.isEmpty then node "program" 0 (html ++ opening ++ items) else failure

/-- The concrete tree of a text, if the grammar accepts the text. -/
def parse? (text : Text) : Option Node :=
  let tokens := Token.scan text
  ((program (nesting (2 * tokens.length + 4))).run { tokens }).map (·.1)

end Namespacer.Grammar
