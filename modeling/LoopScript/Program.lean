import LoopScript.Atom
import LoopScript.Location

/-!
Programs: operators, expressions, statements.
-/

namespace LoopScript

/-- Binary operators. One of another spelling can be written only by hand. -/
inductive BinaryOp where
  | or_ | and_ | eq | ne | lt | gt | le | ge | mem | same
  | bitOr | bitXor | bitAnd | shiftLeft | shiftRight | add | sub | mul | div | mod | pow
  | other (text : String)
deriving DecidableEq, Repr, Inhabited

namespace BinaryOp

def text : BinaryOp → String
  | or_ => "or" | and_ => "and" | eq => "==" | ne => "!=" | lt => "<" | gt => ">" | le => "<="
  | ge => ">=" | mem => "in" | same => "is" | bitOr => "|" | bitXor => "^" | bitAnd => "&"
  | shiftLeft => "<<" | shiftRight => ">>" | add => "+" | sub => "-" | mul => "*" | div => "/"
  | mod => "%" | pow => "**"
  | other s => s

def known : List BinaryOp :=
  [or_, and_, eq, ne, lt, gt, le, ge, mem, same, bitOr, bitXor, bitAnd, shiftLeft, shiftRight, add,
    sub, mul, div, mod, pow]

def ofText (s : String) : BinaryOp :=
  (known.find? (·.text == s)).getD (other s)

end BinaryOp

inductive UnaryOp where
  | not_ | neg | pos | invert
  | other (text : String)
deriving DecidableEq, Repr, Inhabited

namespace UnaryOp

def text : UnaryOp → String
  | not_ => "not" | neg => "-" | pos => "+" | invert => "~"
  | other s => s

def known : List UnaryOp := [not_, neg, pos, invert]

def ofText (s : String) : UnaryOp :=
  (known.find? (·.text == s)).getD (other s)

end UnaryOp

inductive AssignOp where
  | set | add | sub | mul | div
  | other (text : String)
deriving DecidableEq, Repr, Inhabited

namespace AssignOp

def text : AssignOp → String
  | set => "=" | add => "+=" | sub => "-=" | mul => "*=" | div => "/="
  | other s => s

def known : List AssignOp := [set, add, sub, mul, div]

def ofText (s : String) : AssignOp :=
  (known.find? (·.text == s)).getD (other s)

/-- The operator that combines the old value with the new. -/
def combine? : AssignOp → Option BinaryOp
  | set => none
  | add => some .add
  | sub => some .sub
  | mul => some .mul
  | div => some .div
  | other s => some (.ofText (s.dropEnd 1).toString)

end AssignOp

/-- Expressions. In a call the arguments given by position come first. -/
inductive Expr where
  | literal (loc : Location) (value : Atom)
  | name (loc : Location) (id : String)
  | binary (loc : Location) (op : BinaryOp) (left right : Expr)
  | unary (loc : Location) (op : UnaryOp) (operand : Expr)
  | call (loc : Location) (callee : Expr) (args : List Expr) (named : List (String × Expr))
  | index (loc : Location) (base index : Expr)
  | slice (loc : Location) (base : Expr) (start stop step : Option Expr)
  | list (loc : Location) (items : List Expr)
  | tuple (loc : Location) (items : List Expr)
  | dict (loc : Location) (entries : List (Expr × Expr))
  | lambda (loc : Location) (params : List String) (body : Expr)
  | comprehension (loc : Location) (element : Expr) (item : String) (iterable : Expr)
      (condition : Option Expr)
  | member (loc : Location) (base : Expr) (name : String)
deriving Inhabited

namespace Expr

def location : Expr → Location
  | literal loc _ | name loc _ | binary loc _ _ _ | unary loc _ _ | call loc _ _ _ | index loc _ _
  | slice loc _ _ _ _ | list loc _ | tuple loc _ | dict loc _ | lambda loc _ _
  | comprehension loc _ _ _ _ | member loc _ _ => loc

end Expr

inductive Target where
  | name (loc : Location) (id : String)
  | member (loc : Location) (base : Expr) (name : String)
  | index (loc : Location) (base index : Expr)
deriving Inhabited

namespace Target

def ofExpr? : Expr → Option Target
  | .name loc id => some (.name loc id)
  | .member loc base id => some (.member loc base id)
  | .index loc base i => some (.index loc base i)
  | _ => none

def toExpr : Target → Expr
  | .name loc id => .name loc id
  | .member loc base id => .member loc base id
  | .index loc base i => .index loc base i

end Target

mutual

inductive Stmt where
  | expr (loc : Location) (value : Expr)
  | assign (loc : Location) (target : Target) (op : AssignOp) (value : Expr)
  | cond (loc : Location) (test : Expr) (body : List Stmt) (otherwise : Option (List Stmt))
  | loop (loc : Location) (test : Expr) (body : List Stmt)
  | each (loc : Location) (item : String) (iterable : Expr) (body : List Stmt)
  | function (definition : FunctionDef)
  | class_ (loc : Location) (name : String) (methods : List FunctionDef)
  | return_ (loc : Location) (value : Option Expr)
  | break_ (loc : Location)
  | continue_ (loc : Location)
  | pass_ (loc : Location)
  | global_ (loc : Location) (names : List String)
  | import_ (loc : Location) (name : String) (member : Option String)

inductive FunctionDef where
  | mk (loc : Location) (name : String) (params : List String) (body : List Stmt)

end

namespace FunctionDef

def location : FunctionDef → Location
  | mk l _ _ _ => l

def name : FunctionDef → String
  | mk _ n _ _ => n

def params : FunctionDef → List String
  | mk _ _ ps _ => ps

def body : FunctionDef → List Stmt
  | mk _ _ _ b => b

end FunctionDef

instance : Inhabited Stmt := ⟨.pass_ default⟩

instance : Inhabited FunctionDef := ⟨.mk default "" [] []⟩

namespace Stmt

def location : Stmt → Location
  | expr loc _ | assign loc _ _ _ | cond loc _ _ _ | loop loc _ _ | each loc _ _ _
  | class_ loc _ _ | return_ loc _ | break_ loc | continue_ loc | pass_ loc | global_ loc _
  | import_ loc _ _ => loc
  | function d => d.location

/-- The rule by which a statement is executed, as the log of a run names it. -/
def rule : Stmt → String
  | expr .. => "ExpressionStatement"
  | assign .. => "Assignment"
  | cond .. => "IfStatement"
  | loop .. => "WhileStatement"
  | each .. => "ForStatement"
  | function .. => "FuncDef"
  | class_ .. => "ClassDef"
  | return_ .. => "ReturnStatement"
  | break_ .. => "BreakStatement"
  | continue_ .. => "ContinueStatement"
  | pass_ .. => "PassStatement"
  | global_ .. => "GlobalStatement"
  | import_ .. => "ImportStatement"

end Stmt

/-- A program, with the place where its text ends. -/
structure Program where
  location : Location
  statements : List Stmt
deriving Inhabited

end LoopScript
