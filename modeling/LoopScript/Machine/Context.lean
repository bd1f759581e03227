import LoopScript.Value

/-!
Contexts: what is left to do once the current part of a program has given its value or, for a
statement, has ended.
-/

namespace LoopScript

inductive Flow where
  | normal
  | broken
  | continued
  | returned (v : Value)

inductive Awaits where
  | value
  | flow
deriving DecidableEq, Repr

abbrev Awaits.Input : Awaits → Type
  | .value => Value
  | .flow => Flow

/-- The old value of a place that is assigned to, and the operator that joins it with the new. -/
abbrev Old := Option (BinaryOp × Value)

structure Comprehension where
  element : Expr
  item : String
  condition : Option Expr
  scope : ScopeId

/-- A part of a program with a hole: filled with what the first index says, it gives what the
second says. -/
inductive Hole : Awaits → Awaits → Type where
  | rest (statements : List Stmt) (scope : ScopeId) : Hole .flow .flow
  | discard : Hole .value .flow
  | branch (body : List Stmt) (otherwise : Option (List Stmt)) (scope : ScopeId) : Hole .value .flow
  | loopTest (test : Expr) (body : List Stmt) (scope : ScopeId) : Hole .value .flow
  | loopBody (test : Expr) (body : List Stmt) (scope : ScopeId) : Hole .flow .flow
  | eachOver (loc : Location) (item : String) (body : List Stmt) (scope : ScopeId) :
      Hole .value .flow
  | eachBody (item : String) (todo : List Value) (body : List Stmt) (scope : ScopeId) :
      Hole .flow .flow
  | leave : Hole .value .flow
  | assignName (loc : Location) (id : String) (old : Old) (scope : ScopeId) : Hole .value .flow
  | memberBase (loc : Location) (name : String) (op : AssignOp) (value : Expr) (scope : ScopeId) :
      Hole .value .flow
  | assignMember (loc : Location) (base : Addr) (name : String) (old : Old) : Hole .value .flow
  | itemBase (loc : Location) (index : Expr) (op : AssignOp) (value : Expr) (scope : ScopeId) :
      Hole .value .flow
  | itemIndex (loc : Location) (base : Value) (op : AssignOp) (value : Expr) (scope : ScopeId) :
      Hole .value .flow
  | assignItem (loc : Location) (base index : Value) (old : Old) : Hole .value .flow
  | left (loc : Location) (op : BinaryOp) (right : Expr) (scope : ScopeId) : Hole .value .value
  | right (loc : Location) (op : BinaryOp) (left : Value) : Hole .value .value
  | operand (loc : Location) (op : UnaryOp) : Hole .value .value
  | indexBase (loc : Location) (index : Expr) (scope : ScopeId) : Hole .value .value
  | index (loc : Location) (base : Value) : Hole .value .value
  | sliceBase (loc : Location) (bounds : List (Option Expr)) (scope : ScopeId) : Hole .value .value
  | sliceBound (loc : Location) (base : Value) (done : List (Option Int))
      (todo : List (Option Expr)) (scope : ScopeId) : Hole .value .value
  | member (loc : Location) (name : String) : Hole .value .value
  | listItem (done : List Value) (todo : List Expr) (scope : ScopeId) : Hole .value .value
  | dictKey (loc : Location) (value : Expr) (done : Table Value Value) (todo : List (Expr × Expr))
      (scope : ScopeId) : Hole .value .value
  | dictValue (key : Value) (done : Table Value Value) (todo : List (Expr × Expr))
      (scope : ScopeId) : Hole .value .value
  | comprehendOver (loc : Location) (c : Comprehension) : Hole .value .value
  | comprehendTest (c : Comprehension) (inner : ScopeId) (todo done : List Value) :
      Hole .value .value
  | comprehendItem (c : Comprehension) (todo done : List Value) : Hole .value .value
  /-- The body of a function, and the place of its call. -/
  | body (name : String) (loc : Location) : Hole .flow .value
  | lambdaBody (loc : Location) : Hole .value .value
  /-- The call that initialises a new object. -/
  | construct (object : Value) : Hole .value .value
  /-- The call that a host function has passed on. -/
  | forwarded (name : String) (loc : Location) : Hole .value .value

/-- A call of which the callee or some arguments are still to be evaluated. -/
structure PendingCall where
  loc : Location
  callee : Option Value
  args : List Value
  named : Table String Value
  /-- The keyword of the argument that is awaited. -/
  key : Option String
  todo : List (Option String × Expr)
  scope : ScopeId

namespace PendingCall

def arity (p : PendingCall) : Nat :=
  p.args.length + p.named.length + p.todo.length + (if p.callee.isSome then 1 else 0)

def receive (p : PendingCall) (v : Value) : PendingCall :=
  match p.callee, p.key with
  | none, _ => { p with callee := some v }
  | some _, some k => { p with named := p.named.put k v }
  | some _, none => { p with args := p.args ++ [v] }

end PendingCall

structure Sorting where
  loc : Location
  key : Value
  items : List Value
  keys : List Value
  todo : List Value
  reversed : Bool

structure Mapping where
  name : String
  loc : Location
  callee : Value
  done : List Value
  todo : List Value

/-- All that is left to do, up to the end of the program. -/
inductive Context : Awaits → Type where
  | program : Context .flow
  | fill {a b : Awaits} (h : Hole a b) (k : Context b) : Context a
  | argument (p : PendingCall) (k : Context .value) : Context .value
  | sortKey (s : Sorting) (k : Context .value) : Context .value
  | mapItem (m : Mapping) (k : Context .value) : Context .value

inductive Task where
  | exec (s : Stmt) (scope : ScopeId) (k : Context .flow)
  | eval (e : Expr) (scope : ScopeId) (k : Context .value)

/-- Where a suspended program goes on: with a task that is paid for, or behind a call that had to
wait. -/
inductive Resumption where
  | task (t : Task)
  | waited (name : String) (loc : Location) (k : Context .value)

end LoopScript
