import LoopScript.Program.Parser

/-!
Programs written as tokens. Every expression stands in brackets and every body in a block, and each
token takes the place of the part of the program to which it belongs.
-/

namespace LoopScript

open Token (Kind)

namespace Location

variable (loc : Location)

def token (kind : Kind) (lexeme : String) : Token :=
  ⟨kind, lexeme, .none, loc.line, loc.column⟩

def sign (s : Symbol) : Token := loc.token (.symbol s) s.text

def word (k : Keyword) : Token := loc.token (.keyword k) k.text

def ident (name : String) : Token := loc.token .ident name

def newline : Token := loc.token .newline "\n"

/-- A number or a string; how it is spelled does not matter. -/
def value (kind : Kind) (v : Atom) : Token := ⟨kind, "", v, loc.line, loc.column⟩

def bracketed (ts : List Token) : List Token := loc.sign .lparen :: (ts ++ [loc.sign .rparen])

/-- Pieces with a comma before each. -/
def more (pieces : List (List Token)) : List Token := pieces.flatMap (loc.sign .comma :: ·)

def joined : List (List Token) → List Token
  | [] => []
  | ts :: pieces => ts ++ loc.more pieces

def names (xs : List String) : List Token := loc.joined (xs.map fun x => [loc.ident x])

def suite (ts : List Token) : List Token :=
  loc.newline :: loc.token .indent "" :: (ts ++ [loc.token .dedent ""])

def ended (ts : List Token) : List Token := ts ++ [loc.newline]

end Location

def Atom.token (loc : Location) : Atom → Token
  | .none => loc.word .none_
  | .bool true => loc.word .true_
  | .bool false => loc.word .false_
  | .int i => loc.value .number (.int i)
  | .num x => loc.value .number (.num x)
  | .str s => loc.value .string (.str s)

def BinaryOp.kind : BinaryOp → Kind
  | or_ => .keyword .or_ | and_ => .keyword .and_ | mem => .keyword .in_ | same => .keyword .is_
  | eq => .symbol .equalEqual | ne => .symbol .bangEqual | lt => .symbol .less
  | gt => .symbol .greater | le => .symbol .lessEqual | ge => .symbol .greaterEqual
  | bitOr => .symbol .pipe | bitXor => .symbol .caret | bitAnd => .symbol .ampersand
  | shiftLeft => .symbol .leftShift | shiftRight => .symbol .rightShift | add => .symbol .plus
  | sub => .symbol .minus | mul => .symbol .star | div => .symbol .slash
  | mod => .symbol .percent | pow => .symbol .doubleStar
  | other s => .other s

def UnaryOp.kind : UnaryOp → Kind
  | not_ => .keyword .not_ | neg => .symbol .minus | pos => .symbol .plus
  | invert => .symbol .tilde
  | other s => .other s

def AssignOp.kind : AssignOp → Kind
  | set => .symbol .equal | add => .symbol .plusEqual | sub => .symbol .minusEqual
  | mul => .symbol .starEqual | div => .symbol .slashEqual
  | other s => .other s

namespace Expr

mutual

@[simp] def tokens : Expr → List Token
  | .literal loc v => [v.token loc]
  | .name loc id => [loc.ident id]
  | .binary loc op l r =>
    loc.bracketed l.tokens ++ loc.token op.kind op.text :: loc.bracketed r.tokens
  | .unary loc op e => loc.token op.kind op.text :: loc.bracketed e.tokens
  | .call loc f args named =>
    loc.bracketed f.tokens ++ loc.sign .lparen ::
      (loc.joined (pieces loc args ++ namedPieces loc named) ++ [loc.sign .rparen])
  | .index loc base i =>
    loc.bracketed base.tokens ++ loc.sign .lbracket ::
      (loc.bracketed i.tokens ++ [loc.sign .rbracket])
  | .slice loc base start stop step =>
    loc.bracketed base.tokens ++ loc.sign .lbracket ::
      (optional loc [] start ++ loc.sign .colon ::
        (optional loc [] stop ++ (optional loc [loc.sign .colon] step ++ [loc.sign .rbracket])))
  | .list loc items => loc.sign .lbracket :: (loc.joined (pieces loc items) ++ [loc.sign .rbracket])
  | .tuple loc items =>
    loc.sign .lparen :: (loc.joined (pieces loc items) ++
      ((if items.length = 1 then [loc.sign .comma] else []) ++ [loc.sign .rparen]))
  | .dict loc entries =>
    loc.sign .lbrace :: (loc.joined (entryPieces loc entries) ++ [loc.sign .rbrace])
  | .lambda loc params body =>
    loc.word .lambda_ :: (loc.names params ++ loc.sign .colon :: loc.bracketed body.tokens)
  | .comprehension loc element item e condition =>
    loc.sign .lbracket :: (loc.bracketed element.tokens ++ loc.word .for_ :: loc.ident item ::
      loc.word .in_ :: (loc.bracketed e.tokens ++
        (optional loc [loc.word .if_] condition ++ [loc.sign .rbracket])))
  | .member loc base id => loc.bracketed base.tokens ++ [loc.sign .dot, loc.ident id]

/-- An expression that may be missing, behind the tokens that announce it. -/
@[simp] def optional (loc : Location) (lead : List Token) : Option Expr → List Token
  | none => []
  | some e => lead ++ loc.bracketed e.tokens

@[simp] def pieces (loc : Location) : List Expr → List (List Token)
  | [] => []
  | e :: es => loc.bracketed e.tokens :: pieces loc es

@[simp] def namedPieces (loc : Location) : List (String × Expr) → List (List Token)
  | [] => []
  | (x, e) :: named =>
    (loc.ident x :: loc.sign .equal :: loc.bracketed e.tokens) :: namedPieces loc named

@[simp] def entryPieces (loc : Location) : List (Expr × Expr) → List (List Token)
  | [] => []
  | (key, e) :: entries =>
    (loc.bracketed key.tokens ++ loc.sign .colon :: loc.bracketed e.tokens) ::
      entryPieces loc entries

end

mutual

/-- The expression with other places. -/
@[simp] def relocated (f : Location → Location) : Expr → Expr
  | .literal loc v => .literal (f loc) v
  | .name loc id => .name (f loc) id
  | .binary loc op l r => .binary (f loc) op (l.relocated f) (r.relocated f)
  | .unary loc op e => .unary (f loc) op (e.relocated f)
  | .call loc callee args named =>
    .call (f loc) (callee.relocated f) (relocatedItems f args) (relocatedNamed f named)
  | .index loc base i => .index (f loc) (base.relocated f) (i.relocated f)
  | .slice loc base start stop step =>
    .slice (f loc) (base.relocated f) (relocatedOption f start) (relocatedOption f stop)
      (relocatedOption f step)
  | .list loc items => .list (f loc) (relocatedItems f items)
  | .tuple loc items => .tuple (f loc) (relocatedItems f items)
  | .dict loc entries => .dict (f loc) (relocatedEntries f entries)
  | .lambda loc params body => .lambda (f loc) params (body.relocated f)
  | .comprehension loc element item e condition =>
    .comprehension (f loc) (element.relocated f) item (e.relocated f)
      (relocatedOption f condition)
  | .member loc base id => .member (f loc) (base.relocated f) id

@[simp] def relocatedOption (f : Location → Location) : Option Expr → Option Expr
  | none => none
  | some e => some (e.relocated f)

@[simp] def relocatedItems (f : Location → Location) : List Expr → List Expr
  | [] => []
  | e :: es => e.relocated f :: relocatedItems f es

@[simp] def relocatedNamed (f : Location → Location) : List (String × Expr) → List (String × Expr)
  | [] => []
  | (x, e) :: named => (x, e.relocated f) :: relocatedNamed f named

@[simp] def relocatedEntries (f : Location → Location) : List (Expr × Expr) → List (Expr × Expr)
  | [] => []
  | (key, e) :: entries => (key.relocated f, e.relocated f) :: relocatedEntries f entries

end

/-- What the grammar can say: its own operators, and in a call no keyword twice. -/
inductive Spoken : Expr → Prop where
  | literal (loc : Location) (v : Atom) : Spoken (.literal loc v)
  | name (loc : Location) (id : String) : Spoken (.name loc id)
  | binary (loc : Location) {op : BinaryOp} {l r : Expr} (hop : op ∈ BinaryOp.known)
      (hl : Spoken l) (hr : Spoken r) : Spoken (.binary loc op l r)
  | unary (loc : Location) {op : UnaryOp} {e : Expr} (hop : op ∈ UnaryOp.known) (he : Spoken e) :
      Spoken (.unary loc op e)
  | call (loc : Location) {f : Expr} {args : List Expr} {named : List (String × Expr)}
      (hf : Spoken f) (hargs : ∀ e ∈ args, Spoken e) (hnamed : ∀ x ∈ named, Spoken x.2)
      (hkeys : (named.map (·.1)).Nodup) : Spoken (.call loc f args named)
  | index (loc : Location) {base i : Expr} (hb : Spoken base) (hi : Spoken i) :
      Spoken (.index loc base i)
  | slice (loc : Location) {base : Expr} {start stop step : Option Expr} (hb : Spoken base)
      (hstart : ∀ e ∈ start, Spoken e) (hstop : ∀ e ∈ stop, Spoken e)
      (hstep : ∀ e ∈ step, Spoken e) : Spoken (.slice loc base start stop step)
  | list (loc : Location) {items : List Expr} (h : ∀ e ∈ items, Spoken e) : Spoken (.list loc items)
  | tuple (loc : Location) {items : List Expr} (h : ∀ e ∈ items, Spoken e) :
      Spoken (.tuple loc items)
  | dict (loc : Location) {entries : List (Expr × Expr)} (hk : ∀ x ∈ entries, Spoken x.1)
      (hv : ∀ x ∈ entries, Spoken x.2) : Spoken (.dict loc entries)
  | lambda (loc : Location) (params : List String) {body : Expr} (h : Spoken body) :
      Spoken (.lambda loc params body)
  | comprehension (loc : Location) (item : String) {element e : Expr} {condition : Option Expr}
      (helement : Spoken element) (he : Spoken e) (hc : ∀ c ∈ condition, Spoken c) :
      Spoken (.comprehension loc element item e condition)
  | member (loc : Location) (id : String) {base : Expr} (h : Spoken base) :
      Spoken (.member loc base id)

end Expr

namespace Target

@[simp] def tokens (loc : Location) (t : Target) : List Token := loc.bracketed t.toExpr.tokens

@[simp] def relocated (f : Location → Location) : Target → Target
  | .name loc id => .name (f loc) id
  | .member loc base id => .member (f loc) (base.relocated f) id
  | .index loc base i => .index (f loc) (base.relocated f) (i.relocated f)

end Target

mutual

@[simp] def Stmt.tokens : Stmt → List Token
  | .expr loc e => loc.ended (loc.bracketed e.tokens)
  | .assign loc target op e =>
    loc.ended (target.tokens loc ++ loc.token op.kind op.text :: loc.bracketed e.tokens)
  | .cond loc test body none =>
    loc.word .if_ :: (loc.bracketed test.tokens ++ loc.sign .colon ::
      loc.suite (Stmt.blockTokens body))
  | .cond loc test body (some otherwise) =>
    loc.word .if_ :: (loc.bracketed test.tokens ++ loc.sign .colon ::
      (loc.suite (Stmt.blockTokens body) ++ loc.word .else_ :: loc.sign .colon ::
        loc.suite (Stmt.blockTokens otherwise)))
  | .loop loc test body =>
    loc.word .while_ :: (loc.bracketed test.tokens ++ loc.sign .colon ::
      loc.suite (Stmt.blockTokens body))
  | .each loc item e body =>
    loc.word .for_ :: loc.ident item :: loc.word .in_ :: (loc.bracketed e.tokens ++
      loc.sign .colon :: loc.suite (Stmt.blockTokens body))
  | .function d => d.tokens
  | .class_ loc name methods =>
    loc.word .class_ :: loc.ident name :: loc.sign .colon ::
      loc.suite (FunctionDef.blockTokens methods)
  | .return_ loc none => loc.ended [loc.word .return_]
  | .return_ loc (some e) => loc.ended (loc.word .return_ :: loc.bracketed e.tokens)
  | .break_ loc => loc.ended [loc.word .break_]
  | .continue_ loc => loc.ended [loc.word .continue_]
  | .pass_ loc => loc.ended [loc.word .pass_]
  | .global_ loc names => loc.ended (loc.word .global_ :: loc.names names)
  | .import_ loc name none => loc.ended [loc.word .import_, loc.ident name]
  | .import_ loc name (some member) =>
    loc.ended [loc.word .import_, loc.ident name, loc.sign .dot, loc.ident member]

@[simp] def FunctionDef.tokens : FunctionDef → List Token
  | .mk loc name params body =>
    loc.word .def_ :: loc.ident name :: loc.sign .lparen :: (loc.names params ++
      loc.sign .rparen :: loc.sign .colon :: loc.suite (Stmt.blockTokens body))

@[simp] def Stmt.blockTokens : List Stmt → List Token
  | [] => []
  | s :: ss => s.tokens ++ Stmt.blockTokens ss

@[simp] def FunctionDef.blockTokens : List FunctionDef → List Token
  | [] => []
  | d :: ds => d.tokens ++ FunctionDef.blockTokens ds

end

mutual

@[simp] def Stmt.relocated (f : Location → Location) : Stmt → Stmt
  | .expr loc e => .expr (f loc) (e.relocated f)
  | .assign loc target op e => .assign (f loc) (target.relocated f) op (e.relocated f)
  | .cond loc test body none => .cond (f loc) (test.relocated f) (Stmt.relocatedBlock f body) none
  | .cond loc test body (some otherwise) =>
    .cond (f loc) (test.relocated f) (Stmt.relocatedBlock f body)
      (some (Stmt.relocatedBlock f otherwise))
  | .loop loc test body => .loop (f loc) (test.relocated f) (Stmt.relocatedBlock f body)
  | .each loc item e body => .each (f loc) item (e.relocated f) (Stmt.relocatedBlock f body)
  | .function d => .function (d.relocated f)
  | .class_ loc name methods => .class_ (f loc) name (FunctionDef.relocatedBlock f methods)
  | .return_ loc e => .return_ (f loc) (Expr.relocatedOption f e)
  | .break_ loc => .break_ (f loc)
  | .continue_ loc => .continue_ (f loc)
  | .pass_ loc => .pass_ (f loc)
  | .global_ loc names => .global_ (f loc) names
  | .import_ loc name member => .import_ (f loc) name member

@[simp] def FunctionDef.relocated (f : Location → Location) : FunctionDef → FunctionDef
  | .mk loc name params body => .mk (f loc) name params (Stmt.relocatedBlock f body)

@[simp] def Stmt.relocatedBlock (f : Location → Location) : List Stmt → List Stmt
  | [] => []
  | s :: ss => s.relocated f :: Stmt.relocatedBlock f ss

@[simp] def FunctionDef.relocatedBlock (f : Location → Location) : List FunctionDef → List FunctionDef
  | [] => []
  | d :: ds => d.relocated f :: FunctionDef.relocatedBlock f ds

end

/-- What the grammar can say: its own operators, parameters that differ, at least one global name. -/
inductive Stmt.Spoken : Stmt → Prop where
  | expr (loc : Location) {e : Expr} (h : e.Spoken) : Spoken (.expr loc e)
  | assign (loc : Location) {target : Target} {op : AssignOp} {e : Expr}
      (ht : target.toExpr.Spoken) (hop : op ∈ AssignOp.known) (he : e.Spoken) :
      Spoken (.assign loc target op e)
  | cond (loc : Location) {test : Expr} {body : List Stmt} {otherwise : Option (List Stmt)}
      (ht : test.Spoken) (hb : ∀ s ∈ body, Spoken s)
      (ho : ∀ ss ∈ otherwise, ∀ s ∈ ss, Spoken s) : Spoken (.cond loc test body otherwise)
  | loop (loc : Location) {test : Expr} {body : List Stmt} (ht : test.Spoken)
      (hb : ∀ s ∈ body, Spoken s) : Spoken (.loop loc test body)
  | each (loc : Location) (item : String) {e : Expr} {body : List Stmt} (he : e.Spoken)
      (hb : ∀ s ∈ body, Spoken s) : Spoken (.each loc item e body)
  | function {d : FunctionDef} (hp : d.params.Nodup) (hb : ∀ s ∈ d.body, Spoken s) :
      Spoken (.function d)
  | class_ (loc : Location) (name : String) {methods : List FunctionDef}
      (hp : ∀ d ∈ methods, d.params.Nodup) (hb : ∀ d ∈ methods, ∀ s ∈ d.body, Spoken s) :
      Spoken (.class_ loc name methods)
  | return_ (loc : Location) {e : Option Expr} (h : ∀ x ∈ e, x.Spoken) : Spoken (.return_ loc e)
  | break_ (loc : Location) : Spoken (.break_ loc)
  | continue_ (loc : Location) : Spoken (.continue_ loc)
  | pass_ (loc : Location) : Spoken (.pass_ loc)
  | global_ (loc : Location) {names : List String} (h : names ≠ []) : Spoken (.global_ loc names)
  | import_ (loc : Location) (name : String) (member : Option String) :
      Spoken (.import_ loc name member)

namespace Program

@[simp] def tokens (p : Program) : List Token :=
  Stmt.blockTokens p.statements ++ [p.location.token .eof ""]

@[simp] def relocated (f : Location → Location) (p : Program) : Program :=
  ⟨f p.location, Stmt.relocatedBlock f p.statements⟩

def Spoken (p : Program) : Prop := ∀ s ∈ p.statements, s.Spoken

end Program

end LoopScript
