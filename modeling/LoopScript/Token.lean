import LoopScript.Atom

/-!
Tokens of the language: kinds, spellings and positions.
-/

namespace LoopScript

inductive Keyword where
  | if_ | elif_ | else_ | while_ | for_ | def_ | return_ | class_ | break_ | continue_ | pass_
  | global_ | lambda_ | import_ | and_ | or_ | not_ | in_ | is_ | true_ | false_ | none_
deriving DecidableEq, Repr, Inhabited

namespace Keyword

def text : Keyword → String
  | if_ => "if" | elif_ => "elif" | else_ => "else" | while_ => "while" | for_ => "for"
  | def_ => "def" | return_ => "return" | class_ => "class" | break_ => "break"
  | continue_ => "continue" | pass_ => "pass" | global_ => "global" | lambda_ => "lambda"
  | import_ => "import" | and_ => "and" | or_ => "or" | not_ => "not" | in_ => "in" | is_ => "is"
  | true_ => "True" | false_ => "False" | none_ => "None"

def name : Keyword → String
  | if_ => "IF" | elif_ => "ELIF" | else_ => "ELSE" | while_ => "WHILE" | for_ => "FOR"
  | def_ => "DEF" | return_ => "RETURN" | class_ => "CLASS" | break_ => "BREAK"
  | continue_ => "CONTINUE" | pass_ => "PASS" | global_ => "GLOBAL" | lambda_ => "LAMBDA"
  | import_ => "IMPORT" | and_ => "AND" | or_ => "OR" | not_ => "NOT" | in_ => "IN" | is_ => "IS"
  | true_ => "TRUE" | false_ => "FALSE" | none_ => "NONE"

def all : List Keyword :=
  [if_, elif_, else_, while_, for_, def_, return_, class_, break_, continue_, pass_, global_,
    lambda_, import_, and_, or_, not_, in_, is_, true_, false_, none_]

def ofText? (s : String) : Option Keyword :=
  all.find? (·.text == s)

end Keyword

inductive Symbol where
  | doubleStar | equalEqual | bangEqual | lessEqual | greaterEqual | leftShift | rightShift
  | plusEqual | minusEqual | starEqual | slashEqual | plus | minus | star | slash | percent
  | less | greater | equal | ampersand | pipe | caret | tilde
  | lparen | rparen | lbracket | rbracket | lbrace | rbrace | comma | dot | colon
deriving DecidableEq, Repr, Inhabited

namespace Symbol

def text : Symbol → String
  | doubleStar => "**" | equalEqual => "==" | bangEqual => "!=" | lessEqual => "<="
  | greaterEqual => ">=" | leftShift => "<<" | rightShift => ">>" | plusEqual => "+="
  | minusEqual => "-=" | starEqual => "*=" | slashEqual => "/=" | plus => "+" | minus => "-"
  | star => "*" | slash => "/" | percent => "%" | less => "<" | greater => ">" | equal => "="
  | ampersand => "&" | pipe => "|" | caret => "^" | tilde => "~" | lparen => "(" | rparen => ")"
  | lbracket => "[" | rbracket => "]" | lbrace => "\x7b" | rbrace => "\x7d" | comma => ","
  | dot => "." | colon => ":"

def name : Symbol → String
  | doubleStar => "DOUBLE_STAR" | equalEqual => "EQUAL_EQUAL" | bangEqual => "BANG_EQUAL"
  | lessEqual => "LESS_EQUAL" | greaterEqual => "GREATER_EQUAL" | leftShift => "LEFT_SHIFT"
  | rightShift => "RIGHT_SHIFT" | plusEqual => "PLUS_EQUAL" | minusEqual => "MINUS_EQUAL"
  | starEqual => "STAR_EQUAL" | slashEqual => "SLASH_EQUAL" | plus => "PLUS" | minus => "MINUS"
  | star => "STAR" | slash => "SLASH" | percent => "PERCENT" | less => "LESS"
  | greater => "GREATER" | equal => "EQUAL" | ampersand => "AMPERSAND" | pipe => "PIPE"
  | caret => "CARET" | tilde => "TILDE" | lparen => "LPAREN" | rparen => "RPAREN"
  | lbracket => "LBRACKET" | rbracket => "RBRACKET" | lbrace => "LBRACE" | rbrace => "RBRACE"
  | comma => "COMMA" | dot => "DOT" | colon => "COLON"

def pair? : Char → Char → Option Symbol
  | '*', '*' => some doubleStar
  | '=', '=' => some equalEqual
  | '!', '=' => some bangEqual
  | '<', '=' => some lessEqual
  | '>', '=' => some greaterEqual
  | '<', '<' => some leftShift
  | '>', '>' => some rightShift
  | '+', '=' => some plusEqual
  | '-', '=' => some minusEqual
  | '*', '=' => some starEqual
  | '/', '=' => some slashEqual
  | _, _ => none

def single? : Char → Option Symbol
  | '+' => some plus
  | '-' => some minus
  | '*' => some star
  | '/' => some slash
  | '%' => some percent
  | '<' => some less
  | '>' => some greater
  | '=' => some equal
  | '&' => some ampersand
  | '|' => some pipe
  | '^' => some caret
  | '~' => some tilde
  | '(' => some lparen
  | ')' => some rparen
  | '[' => some lbracket
  | ']' => some rbracket
  | '\x7b' => some lbrace
  | '\x7d' => some rbrace
  | ',' => some comma
  | '.' => some dot
  | ':' => some colon
  | _ => none

def all : List Symbol :=
  [doubleStar, equalEqual, bangEqual, lessEqual, greaterEqual, leftShift, rightShift, plusEqual,
    minusEqual, starEqual, slashEqual, plus, minus, star, slash, percent, less, greater, equal,
    ampersand, pipe, caret, tilde, lparen, rparen, lbracket, rbracket, lbrace, rbrace, comma, dot,
    colon]

/-- The opening bracket that a closing bracket answers. -/
def opener? : Symbol → Option Symbol
  | rparen => some lparen
  | rbracket => some lbracket
  | rbrace => some lbrace
  | _ => none

def isOpener : Symbol → Bool
  | lparen | lbracket | lbrace => true
  | _ => false

end Symbol

namespace Token

/-- The kind of a token. Besides words and symbols there are the tokens of the layout; a kind of
another name can only stand in a list of tokens that no source text gives. -/
inductive Kind where
  | newline
  | indent
  | dedent
  | eof
  | number
  | string
  | ident
  | keyword (k : Keyword)
  | symbol (s : Symbol)
  | other (name : String)
deriving DecidableEq, Repr, Inhabited

namespace Kind

def name : Kind → String
  | newline => "NEWLINE"
  | indent => "INDENT"
  | dedent => "DEDENT"
  | eof => "EOF"
  | number => "NUMBER"
  | string => "STRING"
  | ident => "IDENT"
  | keyword k => k.name
  | symbol s => s.name
  | other n => n

def known : List Kind :=
  [newline, indent, dedent, eof, number, string, ident] ++ Keyword.all.map keyword ++
    Symbol.all.map symbol

def ofName (s : String) : Kind :=
  (known.find? (·.name == s)).getD (other s)

end Kind

end Token

structure Token where
  kind : Token.Kind
  lexeme : String
  literal : Atom
  line : Nat
  column : Nat
deriving Inhabited

end LoopScript
