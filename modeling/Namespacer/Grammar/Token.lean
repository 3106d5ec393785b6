import Namespacer.Text.Basic

/-!
# Tokens

The words, symbols and literals that a source text is made of. Which words are
keywords depends on where they stand, so a word keeps its spelling beside the
keyword that it could be.
-/

namespace Namespacer.Grammar

/-- The words that mean something to the grammar. -/
inductive Keyword where
  | abstract_
  | and_
  | array_
  | as_
  | break_
  | case_
  | catch_
  | class_
  | clone_
  | const_
  | continue_
  | declare_
  | default_
  | do_
  | echo_
  | else_
  | elseif_
  | enddeclare_
  | endfor_
  | endforeach_
  | endif_
  | endswitch_
  | endwhile_
  | enum_
  | exit_
  | extends_
  | false_
  | final_
  | finally_
  | fn_
  | for_
  | foreach_
  | function_
  | global_
  | goto_
  | if_
  | implements_
  | include_
  | include_once_
  | instanceof_
  | interface_
  | list_
  | match_
  | namespace_
  | new_
  | null_
  | or_
  | parent_
  | print_
  | private_
  | protected_
  | public_
  | readonly_
  | require_
  | require_once_
  | return_
  | self_
  | static_
  | switch_
  | throw_
  | trait_
  | true_
  | try_
  | unset_
  | use_
  | var_
  | while_
  | xor_
  | yield_
deriving DecidableEq, Repr

/-- The keywords with their spellings in lower case. -/
def keywords : List (String × Keyword) := [
  ("abstract", .abstract_), ("and", .and_), ("array", .array_), ("as", .as_),
  ("break", .break_), ("case", .case_), ("catch", .catch_), ("class", .class_),
  ("clone", .clone_), ("const", .const_), ("continue", .continue_), ("declare", .declare_),
  ("default", .default_), ("do", .do_), ("echo", .echo_), ("else", .else_),
  ("elseif", .elseif_), ("enddeclare", .enddeclare_), ("endfor", .endfor_),
  ("endforeach", .endforeach_), ("endif", .endif_), ("endswitch", .endswitch_),
  ("endwhile", .endwhile_), ("enum", .enum_), ("exit", .exit_), ("extends", .extends_),
  ("false", .false_), ("final", .final_), ("finally", .finally_), ("fn", .fn_), ("for", .for_),
  ("foreach", .foreach_), ("function", .function_), ("global", .global_), ("goto", .goto_),
  ("if", .if_), ("implements", .implements_), ("include", .include_),
  ("include_once", .include_once_), ("instanceof", .instanceof_), ("interface", .interface_),
  ("list", .list_), ("match", .match_), ("namespace", .namespace_), ("new", .new_),
  ("null", .null_), ("or", .or_), ("parent", .parent_), ("print", .print_),
  ("private", .private_), ("protected", .protected_), ("public", .public_),
  ("readonly", .readonly_), ("require", .require_), ("require_once", .require_once_),
  ("return", .return_), ("self", .self_), ("static", .static_), ("switch", .switch_),
  ("throw", .throw_), ("trait", .trait_), ("true", .true_), ("try", .try_), ("unset", .unset_),
  ("use", .use_), ("var", .var_), ("while", .while_), ("xor", .xor_), ("yield", .yield_)]

/-- The keyword that a word can be, in any letter case. -/
def Keyword.ofWord? (word : Text) : Option Keyword :=
  keywords.lookup (String.ofList (word.map Char.toLower))

/-- Punctuation and operators. -/
inductive Symbol where
  | nullsafeArrow
  | ellipsis
  | identical
  | notIdentical
  | spaceship
  | powerAssign
  | shiftLeftAssign
  | shiftRightAssign
  | coalesceAssign
  | openAttribute
  | scope
  | arrow
  | doubleArrow
  | increment
  | decrement
  | equal
  | notEqual
  | lessGreater
  | lessEqual
  | greaterEqual
  | logicalAnd
  | logicalOr
  | coalesce
  | pipe
  | power
  | shiftLeft
  | shiftRight
  | plusAssign
  | minusAssign
  | timesAssign
  | divideAssign
  | concatAssign
  | moduloAssign
  | bitAndAssign
  | bitOrAssign
  | bitXorAssign
  | openParen
  | closeParen
  | openBracket
  | closeBracket
  | openBrace
  | closeBrace
  | semicolon
  | comma
  | colon
  | question
  | dollar
  | backslash
  | assign
  | less
  | greater
  | bitOr
  | bitXor
  | ampersand
  | dot
  | plus
  | minus
  | times
  | divide
  | modulo
  | exclamation
  | tilde
  | at
deriving DecidableEq, Repr

/-- The symbols with their spellings, longer ones first. -/
def symbols : List (String × Symbol) := [
  ("?->", .nullsafeArrow), ("...", .ellipsis), ("===", .identical), ("!==", .notIdentical),
  ("<=>", .spaceship), ("**=", .powerAssign), ("<<=", .shiftLeftAssign),
  (">>=", .shiftRightAssign), ("??=", .coalesceAssign), ("#[", .openAttribute), ("::", .scope),
  ("->", .arrow), ("=>", .doubleArrow), ("++", .increment), ("--", .decrement), ("==", .equal),
  ("!=", .notEqual), ("<>", .lessGreater), ("<=", .lessEqual), (">=", .greaterEqual),
  ("&&", .logicalAnd), ("||", .logicalOr), ("??", .coalesce), ("|>", .pipe), ("**", .power),
  ("<<", .shiftLeft), (">>", .shiftRight), ("+=", .plusAssign), ("-=", .minusAssign),
  ("*=", .timesAssign), ("/=", .divideAssign), (".=", .concatAssign), ("%=", .moduloAssign),
  ("&=", .bitAndAssign), ("|=", .bitOrAssign), ("^=", .bitXorAssign), ("(", .openParen),
  (")", .closeParen), ("[", .openBracket), ("]", .closeBracket), ("\x7b", .openBrace),
  ("\x7d", .closeBrace), (";", .semicolon), (",", .comma), (":", .colon), ("?", .question),
  ("$", .dollar), ("\\", .backslash), ("=", .assign), ("<", .less), (">", .greater),
  ("|", .bitOr), ("^", .bitXor), ("&", .ampersand), (".", .dot), ("+", .plus), ("-", .minus),
  ("*", .times), ("/", .divide), ("%", .modulo), ("!", .exclamation), ("~", .tilde), ("@", .at)]

/-- The symbol that a text begins with, the longest one if there are several,
and the number of its characters. -/
def Symbol.atStart? (text : Text) : Option (Symbol × Nat) :=
  (symbols.find? fun (spelling, _) => Text.startsWith text spelling).map
    fun (spelling, symbol) => (symbol, spelling.length)

/-- The spelling of a symbol. -/
def Symbol.spelling (symbol : Symbol) : String :=
  ((symbols.find? (·.2 == symbol)).map (·.1)).getD ""

/-- What a token is. -/
inductive Lexeme where
  /-- Text outside of the tags, not only blanks. -/
  | html
  /-- An open tag. -/
  | openTag
  /-- A close tag. -/
  | closeTag
  /-- A name or keyword. -/
  | word (text : Text) (keyword : Option Keyword)
  /-- A variable with its dollar sign. -/
  | variable
  | integer
  | float
  /-- A string in single quotes. -/
  | string
  /-- A string in double quotes. -/
  | encapsed
  /-- A command in back quotes. -/
  | shell
  | heredoc
  | nowdoc
  | symbol (symbol : Symbol)
  /-- A character that begins no token. -/
  | unknown
deriving DecidableEq, Repr

/-- A token and the bytes that it covers. -/
structure Token where
  lexeme : Lexeme
  start : Nat
  stop : Nat
deriving DecidableEq, Repr

end Namespacer.Grammar
