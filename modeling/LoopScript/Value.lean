import LoopScript.Program
import LoopScript.Table

/-!
Values, the objects they refer to, and the scopes that bind names to them.
-/

namespace LoopScript

/-- The place of an object in the store. -/
abbrev Addr := Nat

abbrev ScopeId := Nat

inductive Value where
  | atom (a : Atom)
  | ref (a : Addr)
deriving Inhabited

namespace Value

@[match_pattern] abbrev none : Value := .atom .none

@[match_pattern] abbrev bool (b : Bool) : Value := .atom (.bool b)

@[match_pattern] abbrev int (i : Int) : Value := .atom (.int i)

@[match_pattern] abbrev num (x : Float) : Value := .atom (.num x)

@[match_pattern] abbrev str (s : String) : Value := .atom (.str s)

end Value

/-- What a function runs, and the scope in which it was made. -/
structure Closure where
  name : String
  params : List String
  body : List Stmt
  scope : ScopeId

inductive Obj where
  | list (items : List Value)
  | dict (entries : Table Value Value)
  | builtin (name : String)
  | function (f : Closure)
  | lambda (params : List String) (body : Expr) (scope : ScopeId)
  | cls (name : String) (methods : Table String Addr)
  | instance_ (cls : Addr) (fields : Table String Value)
  | method (receiver function : Addr)

instance : Inhabited Obj := ⟨.list []⟩

structure Scope where
  parent : Option ScopeId
  bindings : Table String Value
deriving Inhabited

/-- What a computation gives: a value that is there already, or an object that is yet to be made. -/
inductive Made where
  | value (v : Value)
  | object (o : Obj)

/-- All objects and all scopes that a run has made so far. -/
structure Store where
  objects : Array Obj
  scopes : Array Scope
deriving Inhabited

namespace Store

def empty : Store := ⟨#[], #[]⟩

/-- No program can name an address at which nothing was made. -/
def read (s : Store) (a : Addr) : Obj :=
  s.objects.getD a default

def write (s : Store) (a : Addr) (o : Obj) : Store :=
  { s with objects := s.objects.setIfInBounds a o }

def alloc (s : Store) (o : Obj) : Value × Store :=
  (.ref s.objects.size, { s with objects := s.objects.push o })

def object? (s : Store) : Value → Option Obj
  | .atom _ => none
  | .ref a => some (s.read a)

def className (s : Store) (a : Addr) : String :=
  match s.read a with
  | .cls name _ => name
  | _ => ""

def functionName (s : Store) (a : Addr) : String :=
  match s.read a with
  | .function f => f.name
  | _ => ""

def typeName (s : Store) : Value → String
  | .none => "None"
  | .bool _ => "bool"
  | .int _ | .num _ => "number"
  | .str _ => "string"
  | .ref a =>
    match s.read a with
    | .list _ => "list"
    | .dict _ => "dict"
    | .builtin _ => "builtin function"
    | .function _ => "function"
    | .lambda .. => "lambda"
    | .cls .. => "class"
    | .instance_ c _ => s.className c
    | .method .. => "method"

def truthy (s : Store) : Value → Bool
  | .none => false
  | .bool b => b
  | .int i => i != 0
  | .num x => x != 0
  | .str t => !t.isEmpty
  | .ref a =>
    match s.read a with
    | .list items => !items.isEmpty
    | .dict entries => !entries.isEmpty
    | _ => true

end Store

end LoopScript
