import LoopScript.Scope
import LoopScript.Text.Identifier
import LoopScript.Text.Quoted

/-!
Extensions: what a host adds to the language. A host keeps a state of its own, of type `σ`, which
its functions and handlers may read and change together with the store.
-/

namespace LoopScript

structure World (σ : Type) where
  store : Store
  host : σ

/-- What a suspended program waits for: time, or a condition that is polled. -/
inductive Wait (σ : Type) where
  | seconds (s : Float)
  | condition (holds : World σ → Bool × World σ)

structure Call where
  args : List Value
  named : Table String Value
  location : Location

namespace Call

def arity (c : Call) : Nat := c.args.length + c.named.length

end Call

inductive Reply (σ : Type) where
  | value (v : Value)
  | wait (w : Wait σ)
  | fault (f : Fault)

inductive CoreFunction where
  | print | sleep | range | len | str | int | float | abs | min | max | sum | sorted
deriving DecidableEq, Repr

/-- How a function comes to its result: at once, or by way of calls back into the program. -/
inductive Action (σ : Type) where
  | core (f : CoreFunction)
  | host (reply : Call → World σ → Reply σ × World σ)
  /-- Calls the first argument with all the others; what comes back decides the reply. -/
  | forward (finish : Value → Location → World σ → Reply σ × World σ)
  /-- Calls the first argument with each item of the second. -/
  | each

/-- A function that programs can call without having defined it. It takes at least `least` arguments
by position, and at most `most`. -/
structure Builtin (σ : Type) where
  name : String
  least : Nat
  most : Option Nat
  suspends : Bool
  doc : String
  keywords : List String
  action : Action σ

inductive EventKind where
  | programStart | beforeStatement | beforeCall | afterCall | onPause | onError | programEnd
deriving DecidableEq, Repr

namespace EventKind

def name : EventKind → String
  | programStart => "program_start"
  | beforeStatement => "before_statement"
  | beforeCall => "before_call"
  | afterCall => "after_call"
  | onPause => "on_pause"
  | onError => "on_error"
  | programEnd => "program_end"

def all : List EventKind :=
  [programStart, beforeStatement, beforeCall, afterCall, onPause, onError, programEnd]

def ofName? (s : String) : Option EventKind :=
  all.find? (·.name == s)

end EventKind

inductive Event (σ : Type) where
  | programStart (program : Program) (globals : ScopeId)
  | beforeStatement (statement : Stmt) (scope : ScopeId)
  | beforeCall (name : String) (args : List Value) (location : Location)
  | afterCall (name : String) (result : Value) (location : Location)
  | onPause (wait : Wait σ)
  | onError (error : RuntimeError)
  | programEnd

namespace Event

def kind {σ : Type} : Event σ → EventKind
  | programStart .. => .programStart
  | beforeStatement .. => .beforeStatement
  | beforeCall .. => .beforeCall
  | afterCall .. => .afterCall
  | onPause .. => .onPause
  | onError .. => .onError
  | programEnd => .programEnd

end Event

/-- A handler of an event; the higher its priority, the sooner it is called. -/
structure Hook (σ : Type) where
  kind : EventKind
  priority : Int
  handle : Event σ → World σ → Option Fault × World σ

/-- What a step rule is told: the number of the step, and the rule and place of its statement. -/
structure StepContext where
  step : Nat
  rule : String
  location : Option Location

structure StepRule (σ : Type) where
  every : Nat
  handle : StepContext → World σ → Option Fault × World σ

structure Metadata where
  name : String
  version : String
  requires : Int
deriving DecidableEq, Repr

inductive ExtensionError where
  | functionName (name : String)
  | functionTaken (name : String)
  | arity (name : String)
  | globalName (name : String)
  | globalTaken (name : String)
  | enumMember (enum shown : String)
  | unknownEvent (name : String)
  | stepCount
  | coreFunction (name : String)
  | notFound (path : String)
  | listNotFound (path : String)
  | notLoadable (path : String)
  | version (name : String) (required : Int) (supported : Nat)
  | noEntryPoint (name : String)
deriving DecidableEq, Repr

namespace ExtensionError

def message : ExtensionError → String
  | functionName name => "Builtin name must be an identifier, got " ++ Text.quoted name
  | functionTaken name => "Builtin '" ++ name ++ "' is already registered"
  | arity name => "Builtin '" ++ name ++ "' has an invalid arity"
  | globalName name => "Global name must be an identifier, got " ++ Text.quoted name
  | globalTaken name => "Global '" ++ name ++ "' is already registered"
  | enumMember enum shown =>
    "Enum '" ++ enum ++ "' member must be an identifier, got " ++ shown
  | unknownEvent name => "Unknown hook event '" ++ name ++ "'"
  | stepCount => "every_n_steps must be >= 1"
  | coreFunction name => "Cannot override existing builtin '" ++ name ++ "'"
  | notFound path => "Extension not found: " ++ path
  | listNotFound path => ".loopx file not found: " ++ path
  | notLoadable path => "Failed to load extension module: " ++ path
  | version name required supported =>
    "Extension " ++ name ++ " requires API " ++ toString required ++ ", host supports " ++
      toString supported
  | noEntryPoint name => "Extension " ++ name ++ " must define callable loop_register(ext)"

end ExtensionError

end LoopScript
