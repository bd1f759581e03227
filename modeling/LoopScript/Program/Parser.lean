import LoopScript.Program
import LoopScript.Text.Blank
import LoopScript.Text.Lines
import LoopScript.Token.Scan

/-!
From tokens to programs. The grammar is read from the left with one token of lookahead; each reader
takes a bound on its depth, which `Program.ofTokens` derives from the number of tokens.
-/

namespace LoopScript

inductive ParseFault where
  /-- Something else than what stands here was expected. -/
  | expected (what : String)
  | expectedLineEnd (found : String)
  | unexpected (found : String)
  | endOfInput
  | duplicateParameter (name : String)
  | duplicateKeyword (name : String)
  | positionalAfterKeyword
  | onlyMethods
  | invalidTarget
deriving DecidableEq, Repr

namespace ParseFault

def message : ParseFault → String
  | expected what => "Expected " ++ what
  | expectedLineEnd found => "Expected newline after statement but found '" ++ found ++ "'"
  | unexpected found => "Unexpected token: '" ++ found ++ "'"
  | endOfInput => "Unexpected end of input"
  | duplicateParameter name => "Duplicate parameter '" ++ name ++ "'"
  | duplicateKeyword name => "Duplicate keyword argument '" ++ name ++ "'"
  | positionalAfterKeyword => "Positional argument cannot follow keyword argument"
  | onlyMethods => "Only method definitions allowed in class body"
  | invalidTarget => "Invalid assignment target"

end ParseFault

/-- Why tokens are no program: a fault on some line, or a list of tokens that has no end mark. -/
inductive ParseError where
  | refused (fault : ParseFault) (line : Nat)
  | ranOut
deriving DecidableEq, Repr

namespace ParseError

def message : ParseError → String
  | refused fault _ => fault.message
  | ranOut => "list index out of range"

def text : ParseError → String
  | refused fault line => headline "Parse" (some line) fault.message
  | ranOut => "list index out of range"

end ParseError

structure Origin where
  file : String
  lines : Array String

namespace Origin

def locate (o : Origin) (t : Token) : Location :=
  let statement := if t.line = 0 then "" else Text.trim ((o.lines[t.line - 1]?).getD "")
  ⟨o.file, t.line, t.column, statement⟩

end Origin

abbrev Reader (α : Type) := StateT (List Token) (Except ParseError) α

namespace Reader

open Token (Kind)

def refuse {α : Type} (fault : ParseFault) (line : Nat) : Reader α :=
  throw (.refused fault line)

/-- The depth of reading is exhausted. -/
def tooDeep {α : Type} : Reader α :=
  throw .ranOut

def peek : Reader Token := do
  match ← get with
  | [] => throw .ranOut
  | t :: _ => pure t

def peekKind : Reader Kind := do
  pure (← peek).kind

/-- The kind of the token after the next one; of the next one itself if it is the last. -/
def peekSecond : Reader Kind := do
  match ← get with
  | [] => throw .ranOut
  | [t] => pure t.kind
  | _ :: t :: _ => pure t.kind

def skip : Reader Unit :=
  modify List.tail

def accept (kind : Kind) : Reader Bool := do
  if (← peekKind) = kind then
    skip
    pure true
  else pure false

def expect (kind : Kind) (what : String) : Reader Token := do
  let t ← peek
  if t.kind = kind then
    skip
    pure t
  else refuse (.expected what) t.line

def word (k : Keyword) : Kind := .keyword k

def sign (s : Symbol) : Kind := .symbol s

/-- Names separated by commas. -/
def names (what : String) : Nat → Reader (List String)
  | 0 => tooDeep
  | n + 1 => do
    let t ← expect .ident what
    if ← accept (sign .comma) then
      pure (t.lexeme :: (← names what n))
    else pure [t.lexeme]

/-- The parameters of a definition up to the closing bracket; they differ from one another. -/
def parameters (seen : List String) : Nat → Reader (List String)
  | 0 => tooDeep
  | n + 1 => do
    let t ← expect .ident "parameter name"
    if t.lexeme ∈ seen then refuse (.duplicateParameter t.lexeme) t.line
    else if ← accept (sign .comma) then
      if (← peekKind) = sign .rparen then pure [t.lexeme]
      else pure (t.lexeme :: (← parameters (t.lexeme :: seen) n))
    else pure [t.lexeme]

/-- The levels of binary operators that associate to the left, from the loosest on. -/
inductive Level where
  | disjunction | conjunction | comparison | bitOr | bitXor | bitAnd | shift | sum | product
deriving DecidableEq, Repr

namespace Level

def operators : Level → List Kind
  | disjunction => [word .or_]
  | conjunction => [word .and_]
  | comparison =>
    [sign .equalEqual, sign .bangEqual, sign .less, sign .greater, sign .lessEqual,
      sign .greaterEqual, word .in_, word .is_]
  | bitOr => [sign .pipe]
  | bitXor => [sign .caret]
  | bitAnd => [sign .ampersand]
  | shift => [sign .leftShift, sign .rightShift]
  | sum => [sign .plus, sign .minus]
  | product => [sign .star, sign .slash, sign .percent]

def operator : Level → Token → BinaryOp
  | disjunction, _ => .or_
  | conjunction, _ => .and_
  | _, t => .ofText t.lexeme

end Level

def assignments : List Kind :=
  [sign .equal, sign .plusEqual, sign .minusEqual, sign .starEqual, sign .slashEqual]

section

variable (o : Origin)

mutual

def expression : Nat → Reader Expr
  | 0 => tooDeep
  | n + 1 => do
    let t ← peek
    if t.kind = word .lambda_ then
      skip
      let params ← if (← peekKind) = sign .colon then pure [] else names "parameter name" n
      let _ ← expect (sign .colon) "':' after lambda parameters"
      pure (.lambda (o.locate t) params (← chain n .disjunction))
    else chain n .disjunction

def chain : Nat → Level → Reader Expr
  | 0, _ => tooDeep
  | n + 1, level => do links n level (← operand n level)

def links : Nat → Level → Expr → Reader Expr
  | 0, _, _ => tooDeep
  | n + 1, level, left => do
    let t ← peek
    if t.kind ∈ level.operators then
      skip
      let right ← operand n level
      links n level (.binary (o.locate t) (level.operator t) left right)
    else pure left

def operand : Nat → Level → Reader Expr
  | 0, _ => tooDeep
  | n + 1, .disjunction => chain n .conjunction
  | n + 1, .conjunction => negation n
  | n + 1, .comparison => chain n .bitOr
  | n + 1, .bitOr => chain n .bitXor
  | n + 1, .bitXor => chain n .bitAnd
  | n + 1, .bitAnd => chain n .shift
  | n + 1, .shift => chain n .sum
  | n + 1, .sum => chain n .product
  | n + 1, .product => power n

def negation : Nat → Reader Expr
  | 0 => tooDeep
  | n + 1 => do
    let t ← peek
    if t.kind = word .not_ then
      skip
      pure (.unary (o.locate t) .not_ (← negation n))
    else chain n .comparison

/-- A power, which associates to the right. -/
def power : Nat → Reader Expr
  | 0 => tooDeep
  | n + 1 => do
    let base ← signed n
    let t ← peek
    if t.kind = sign .doubleStar then
      skip
      pure (.binary (o.locate t) .pow base (← power n))
    else pure base

def signed : Nat → Reader Expr
  | 0 => tooDeep
  | n + 1 => do
    let t ← peek
    if t.kind ∈ [sign .minus, sign .plus, sign .tilde, word .not_] then
      skip
      pure (.unary (o.locate t) (.ofText t.lexeme) (← signed n))
    else postfixed n (← atom n)

def postfixed : Nat → Expr → Reader Expr
  | 0, _ => tooDeep
  | n + 1, base => do
    let t ← peek
    if t.kind = sign .lparen then
      skip
      let (args, named) ← arguments n []
      postfixed n (.call (o.locate t) base args named)
    else if t.kind = sign .lbracket then
      skip
      postfixed n (← subscript n (o.locate t) base)
    else if t.kind = sign .dot then
      skip
      let name ← expect .ident "member name after '.'"
      postfixed n (.member (o.locate t) base name.lexeme)
    else pure base

/-- The arguments of a call up to its closing bracket. `seen` holds the keywords so far. -/
def arguments : Nat → List String → Reader (List Expr × List (String × Expr))
  | 0, _ => tooDeep
  | n + 1, seen => do
    let t ← peek
    if t.kind = sign .rparen then
      skip
      pure ([], [])
    else if t.kind = .ident ∧ (← peekSecond) = sign .equal then
      skip
      skip
      if t.lexeme ∈ seen then refuse (.duplicateKeyword t.lexeme) t.line
      else
        let value ← expression n
        let (args, named) ← moreArguments n (t.lexeme :: seen)
        pure (args, (t.lexeme, value) :: named)
    else if seen ≠ [] then refuse .positionalAfterKeyword t.line
    else
      let value ← expression n
      let (args, named) ← moreArguments n seen
      pure (value :: args, named)

def moreArguments : Nat → List String → Reader (List Expr × List (String × Expr))
  | 0, _ => tooDeep
  | n + 1, seen => do
    if ← accept (sign .comma) then arguments n seen
    else
      let _ ← expect (sign .rparen) "')' after arguments"
      pure ([], [])

/-- An index or a slice, after its opening bracket. -/
def subscript : Nat → Location → Expr → Reader Expr
  | 0, _, _ => tooDeep
  | n + 1, loc, base => do
    if ← accept (sign .colon) then slice n loc base none
    else
      let start ← expression n
      if ← accept (sign .colon) then slice n loc base (some start)
      else
        let _ ← expect (sign .rbracket) "']'"
        pure (.index loc base start)

/-- The rest of a slice, after its first colon. -/
def slice : Nat → Location → Expr → Option Expr → Reader Expr
  | 0, _, _, _ => tooDeep
  | n + 1, loc, base, start => do
    let stop ← if (← peekKind) ∈ [sign .colon, sign .rbracket] then pure none
      else some <$> expression n
    let step ←
      if ← accept (sign .colon) then
        if (← peekKind) = sign .rbracket then pure none else some <$> expression n
      else pure none
    let _ ← expect (sign .rbracket) "']'"
    pure (.slice loc base start stop step)

def atom : Nat → Reader Expr
  | 0 => tooDeep
  | n + 1 => do
    let t ← peek
    let loc := o.locate t
    match t.kind with
    | .keyword .true_ => skip; pure (.literal loc (.bool true))
    | .keyword .false_ => skip; pure (.literal loc (.bool false))
    | .keyword .none_ => skip; pure (.literal loc .none)
    | .number => skip; pure (.literal loc t.literal)
    | .string => skip; pure (.literal loc t.literal)
    | .ident => skip; pure (.name loc t.lexeme)
    | .symbol .lparen => skip; parenthesized n loc
    | .symbol .lbracket => skip; bracketed n loc
    | .symbol .lbrace =>
      skip
      let entries ← dictEntries n
      let _ ← expect (sign .rbrace) "'\x7d'"
      pure (.dict loc entries)
    | .eof => refuse .endOfInput t.line
    | kind => refuse (.unexpected (if t.lexeme.isEmpty then kind.name else t.lexeme)) t.line

/-- A grouped expression or a tuple, after its opening bracket. -/
def parenthesized : Nat → Location → Reader Expr
  | 0, _ => tooDeep
  | n + 1, loc => do
    if ← accept (sign .rparen) then pure (.tuple loc [])
    else
      let first ← expression n
      if ← accept (sign .comma) then
        let rest ← items n (sign .rparen)
        let _ ← expect (sign .rparen) "')' after tuple"
        pure (.tuple loc (first :: rest))
      else
        let _ ← expect (sign .rparen) "')'"
        pure first

/-- Expressions separated by commas, up to a closing bracket that is left in place. -/
def items : Nat → Kind → Reader (List Expr)
  | 0, _ => tooDeep
  | n + 1, closer => do
    if (← peekKind) = closer then pure []
    else
      let item ← expression n
      if ← accept (sign .comma) then pure (item :: (← items n closer))
      else pure [item]

/-- A list or a comprehension, after its opening bracket. -/
def bracketed : Nat → Location → Reader Expr
  | 0, _ => tooDeep
  | n + 1, loc => do
    if ← accept (sign .rbracket) then pure (.list loc [])
    else
      let first ← expression n
      if ← accept (word .for_) then
        let item ← expect .ident "variable in list comprehension"
        let _ ← expect (word .in_) "'in' in list comprehension"
        let iterable ← expression n
        let condition ← if ← accept (word .if_) then some <$> expression n else pure none
        let _ ← expect (sign .rbracket) "']' after list comprehension"
        pure (.comprehension loc first item.lexeme iterable condition)
      else
        let rest ← if ← accept (sign .comma) then items n (sign .rbracket) else pure []
        let _ ← expect (sign .rbracket) "']'"
        pure (.list loc (first :: rest))

def dictEntries : Nat → Reader (List (Expr × Expr))
  | 0 => tooDeep
  | n + 1 => do
    if (← peekKind) = sign .rbrace then pure []
    else
      let key ← expression n
      let _ ← expect (sign .colon) "':' in dictionary literal"
      let value ← expression n
      if ← accept (sign .comma) then pure ((key, value) :: (← dictEntries n))
      else pure [(key, value)]

end

/-- Skips the end of the line, and the empty lines after it. -/
def newlines : Nat → Reader Unit
  | 0 => tooDeep
  | n + 1 => do
    if ← accept .newline then newlines n else pure ()

def statementEnd (n : Nat) : Reader Unit := do
  let t ← peek
  if t.kind = .dedent ∨ t.kind = .eof then pure ()
  else if t.kind = .newline then newlines n
  else refuse (.expectedLineEnd t.lexeme) t.line

def assignmentOrExpression (n : Nat) (loc : Location) : Reader Stmt := do
  let e ← expression o n
  let t ← peek
  if t.kind ∈ assignments then
    skip
    match Target.ofExpr? e with
    | none => refuse .invalidTarget t.line
    | some target => pure (.assign loc target (.ofText t.lexeme) (← expression o n))
  else pure (.expr loc e)

def simpleBody (n : Nat) : Reader Stmt := do
  let t ← peek
  let loc := o.locate t
  match t.kind with
  | .keyword .return_ =>
    skip
    if (← peekKind) ∈ [.newline, .dedent, .eof] then pure (.return_ loc none)
    else pure (.return_ loc (some (← expression o n)))
  | .keyword .break_ => skip; pure (.break_ loc)
  | .keyword .continue_ => skip; pure (.continue_ loc)
  | .keyword .pass_ => skip; pure (.pass_ loc)
  | .keyword .global_ =>
    skip
    let first ← expect .ident "variable name after 'global'"
    let rest ← if ← accept (sign .comma) then names "variable name after ','" n else pure []
    pure (.global_ loc (first.lexeme :: rest))
  | .keyword .import_ =>
    skip
    let name ← expect .ident "enum name after 'import'"
    if ← accept (sign .dot) then
      let member ← expect .ident "member name after '.'"
      pure (.import_ loc name.lexeme (some member.lexeme))
    else pure (.import_ loc name.lexeme none)
  | _ => assignmentOrExpression o n loc

/-- A statement that fits on one logical line. -/
def simple (n : Nat) : Reader Stmt := do
  let s ← simpleBody o n
  statementEnd n
  pure s

mutual

def statement : Nat → Reader Stmt
  | 0 => tooDeep
  | n + 1 => do
    let t ← peek
    let loc := o.locate t
    match t.kind with
    | .keyword .if_ =>
      skip
      let test ← expression o n
      let _ ← expect (sign .colon) "':' after if condition"
      let body ← suite n
      pure (.cond loc test body (← alternative n))
    | .keyword .while_ =>
      skip
      let test ← expression o n
      let _ ← expect (sign .colon) "':' after while condition"
      pure (.loop loc test (← suite n))
    | .keyword .for_ =>
      skip
      let item ← expect .ident "variable name in for loop"
      let _ ← expect (word .in_) "'in' in for loop"
      let iterable ← expression o n
      let _ ← expect (sign .colon) "':' after for clause"
      pure (.each loc item.lexeme iterable (← suite n))
    | .keyword .def_ => .function <$> functionDef n
    | .keyword .class_ => classDef n
    | _ => simple o n

/-- What is left of a conditional after its body: each further condition stands alone in the branch
of the one before. -/
def alternative : Nat → Reader (Option (List Stmt))
  | 0 => tooDeep
  | n + 1 => do
    let t ← peek
    if t.kind = word .elif_ then
      skip
      let test ← expression o n
      let _ ← expect (sign .colon) "':' after elif condition"
      let body ← suite n
      pure (some [.cond (o.locate t) test body (← alternative n)])
    else if ← accept (word .else_) then
      let _ ← expect (sign .colon) "':' after else"
      some <$> suite n
    else pure none

def functionDef : Nat → Reader FunctionDef
  | 0 => tooDeep
  | n + 1 => do
    let t ← expect (word .def_) "'def'"
    let name ← expect .ident "function name"
    let _ ← expect (sign .lparen) "'(' after function name"
    let params ← if (← peekKind) = sign .rparen then pure [] else parameters [] n
    let _ ← expect (sign .rparen) "')' after parameters"
    let _ ← expect (sign .colon) "':' after function signature"
    pure (.mk (o.locate t) name.lexeme params (← suite n))

def classDef : Nat → Reader Stmt
  | 0 => tooDeep
  | n + 1 => do
    let t ← expect (word .class_) "'class'"
    let name ← expect .ident "class name"
    let _ ← expect (sign .colon) "':' after class name"
    let loc := o.locate t
    let next ← peek
    if next.kind = .newline then
      skip
      let _ ← expect .indent "indented block after class definition"
      let methods ← methodDefs n
      let _ ← expect .dedent "dedent after class body"
      pure (.class_ loc name.lexeme methods)
    else if next.kind = word .pass_ then
      skip
      statementEnd n
      pure (.class_ loc name.lexeme [])
    else refuse .onlyMethods next.line

def methodDefs : Nat → Reader (List FunctionDef)
  | 0 => tooDeep
  | n + 1 => do
    let t ← peek
    if t.kind = .dedent ∨ t.kind = .eof then pure []
    else if ← accept .newline then methodDefs n
    else if t.kind = word .def_ then
      let method ← functionDef n
      pure (method :: (← methodDefs n))
    else if ← accept (word .pass_) then
      statementEnd n
      methodDefs n
    else refuse .onlyMethods t.line

/-- The body of a compound statement: a block, or one statement on the same line. -/
def suite : Nat → Reader (List Stmt)
  | 0 => tooDeep
  | n + 1 => do
    if ← accept .newline then
      let _ ← expect .indent "indented block"
      let body ← statements n
      let _ ← expect .dedent "dedent"
      pure body
    else pure [← simple o n]

def statements : Nat → Reader (List Stmt)
  | 0 => tooDeep
  | n + 1 => do
    let t ← peek
    if t.kind = .dedent ∨ t.kind = .eof then pure []
    else if ← accept .newline then statements n
    else
      let s ← statement n
      pure (s :: (← statements n))

end

def topLevel : Nat → Reader (List Stmt)
  | 0 => tooDeep
  | n + 1 => do
    let t ← peek
    if t.kind = .eof then pure []
    else if ← accept .newline then topLevel n
    else
      let s ← statement o n
      pure (s :: (← topLevel n))

def program (n : Nat) : Reader Program := do
  let body ← topLevel o n
  pure ⟨o.locate (← peek), body⟩

end

end Reader

namespace Program

/-- No reader goes deeper than this between two tokens. -/
def depthPerToken : Nat := 40

def ofTokens (o : Origin) (tokens : List Token) : Except ParseError Program :=
  (Reader.program o (depthPerToken * (tokens.length + 1))).run' tokens

end Program

inductive SourceError where
  | scan (e : Token.ScanError)
  | parse (e : ParseError)
deriving DecidableEq, Repr

namespace SourceError

def text : SourceError → String
  | scan e => e.text
  | parse e => e.text

end SourceError

namespace Program

def ofSource (text file : String) : Except SourceError Program :=
  match Token.scan text with
  | .error e => .error (.scan e)
  | .ok tokens =>
    match ofTokens ⟨file, (Text.lines text).toArray⟩ tokens with
    | .error e => .error (.parse e)
    | .ok p => .ok p

end Program

end LoopScript
