import Namespacer.Grammar.Token
import Namespacer.Syntax.Concrete

/-!
# Reading tokens

A reader takes tokens from the front of a list and builds nodes of a concrete
tree. It fails where the tokens do not fit the grammar. Repetitions are
bounded by the number of tokens that are left.
-/

namespace Namespacer.Grammar

/-- A node built by the grammar. -/
abbrev Node := Concrete Unit

/-- The tokens that are left, and the end of the last one taken. -/
structure Input where
  tokens : List Token
  last : Nat := 0

/-- A reader of tokens. -/
abbrev Reader := StateT Input Option

namespace Reader

variable {α : Type}

/-- The lexeme of the token after `skip` tokens. -/
def peek (skip : Nat := 0) : Reader (Option Lexeme) := do
  return ((← get).tokens[skip]?).map (·.lexeme)

/-- Where the next token begins. -/
def position : Reader Nat := do
  let input ← get
  return match input.tokens with
    | token :: _ => token.start
    | [] => input.last

/-- Takes the next token. -/
def take : Reader Token := do
  match (← get).tokens with
  | token :: tokens =>
    set (⟨tokens, token.stop⟩ : Input)
    return token
  | [] => failure

/-- Whether the token after `skip` tokens is a symbol. -/
def isSymbol (symbol : Symbol) (skip : Nat := 0) : Reader Bool := do
  return (← peek skip) == some (.symbol symbol)

/-- Takes a symbol if it comes next. -/
def accept (symbol : Symbol) : Reader Bool := do
  if ← isSymbol symbol then
    discard take
    return true
  return false

/-- Takes a symbol that has to come next. -/
def symbol (symbol : Symbol) : Reader Unit := do
  unless ← accept symbol do failure

/-- The keyword after `skip` tokens. -/
def keyword? (skip : Nat := 0) : Reader (Option Keyword) := do
  match ← peek skip with
  | some (.word _ keyword) => return keyword
  | _ => return none

/-- Whether a keyword comes after `skip` tokens. -/
def isKeyword (keyword : Keyword) (skip : Nat := 0) : Reader Bool := do
  return (← keyword? skip) == some keyword

/-- Takes a keyword if it comes next. -/
def acceptKeyword (keyword : Keyword) : Reader Bool := do
  if ← isKeyword keyword then
    discard take
    return true
  return false

/-- Takes a keyword that has to come next. -/
def keyword (keyword : Keyword) : Reader Unit := do
  unless ← acceptKeyword keyword do failure

/-- Whether a word comes after `skip` tokens. -/
def isWord (skip : Nat := 0) : Reader Bool := do
  match ← peek skip with
  | some (.word _ _) => return true
  | _ => return false

/-- The lower-case spelling of the word after `skip` tokens; empty where there
is none. -/
def spelling (skip : Nat := 0) : Reader Text := do
  match ← peek skip with
  | some (.word text _) => return text.map Char.toLower
  | _ => return []

/-- A named node from a starting point to the last token taken. -/
def node (kind : String) (start : Nat) (children : List Node) : Reader Node := do
  return .node () kind true none start (← get).last children

/-- Takes the next token as a node without children. -/
def leaf (kind : String) : Reader Node := do
  let token ← take
  return .node () kind true none token.start token.stop []

/-- Takes the next token as the operator of its parent. -/
def operator (kind : String) : Reader Node := do
  let token ← take
  return .node () kind false (some "operator") token.start token.stop []

/-- Takes a word as a name. -/
def name : Reader Node := do
  unless ← isWord do failure
  leaf "name"

/-- Repeats a reader until it finds nothing, at most as often as `rounds`. -/
def repeatFor (item : Reader (Option α)) : (rounds : Nat) → Reader (List α)
  | 0 => return []
  | rounds + 1 => do
    match ← item with
    | none => return []
    | some found => return found :: (← repeatFor item rounds)

/-- Repeats a reader until it finds nothing. -/
def collect (item : Reader (Option α)) : Reader (List α) := do
  repeatFor item ((← get).tokens.length + 1)

/-- Extends a value as long as there is something to extend it with, at most
as often as `rounds`. -/
def extendFor (step : α → Reader (Option α)) : (rounds : Nat) → α → Reader α
  | 0, value => return value
  | rounds + 1, value => do
    match ← step value with
    | none => return value
    | some value => extendFor step rounds value

/-- Extends a value as long as there is something to extend it with. -/
def extend (step : α → Reader (Option α)) (value : α) : Reader α := do
  extendFor step ((← get).tokens.length + 1) value

/-- Items with commas between them up to a closing symbol. A comma may stand
before the closing symbol, and an item may be missing where `item` says so. -/
def listUntil (close : Symbol) (item : Reader (List α)) : Reader (List α) := do
  let items ← collect do
    if ← isSymbol close then return none
    let found ← item
    unless ← accept .comma do
      unless ← isSymbol close do failure
    return some found
  symbol close
  return items.flatten

/-- One or more items with commas between them. -/
def commaSeparated (item : Reader α) : Reader (List α) := do
  let first ← item
  let rest ← collect do
    if ← accept .comma then return some (← item) else return none
  return first :: rest

end Reader

end Namespacer.Grammar
