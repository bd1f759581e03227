import LoopScript.Location

/-!
What can go wrong while a program runs: causes, their wording, and the rule that each violates.
-/

namespace LoopScript

/-- Why a run fails. Types, operators and values are told by their names. -/
inductive Cause where
  | undefined (name : String)
  | tooFewArguments (callee : String) (least got : Nat)
  | tooManyArguments (callee : String) (most got : Nat)
  | wrongArity (callee : String) (expected got : Nat)
  | unexpectedKeyword (callee key : String)
  | multipleValues (callee key : String)
  | missingArgument (callee param : String)
  | noReceiver (method rule : String)
  | notCallable (type : String)
  | callsTooDeep
  | incomparable (left right : String)
  | unhashable (type : String)
  | notNumeral (text rule : String)
  | notConvertible (type rule : String)
  | notFinite (number rule : String)
  | notNumber (type rule : String)
  | badDuration
  | zeroStep
  | noLength (type : String)
  | emptySequence (rule : String)
  | strayReturn
  | strayBreak
  | strayContinue
  | memberNotSettable (type : String)
  | operands (op left right : String)
  | operand (op type : String)
  | unknownOperator (op : String)
  | divisionByZero
  | moduloByZero
  | overflow (op : String)
  | invalidPower (base exponent : String)
  | negativeShift (op : String)
  | notInString (type : String)
  | notContainer (type : String)
  | indexNotNumber (type : String)
  | indexNotWhole (number : String)
  | listIndex
  | stringIndex
  | listAssignmentIndex
  | keyNotFound (key : String)
  | notSubscriptable (type : String)
  | notItemAssignable (type : String)
  | notSliceable (type : String)
  | noNamespaceMember (name : String)
  | noAttribute (cls name : String)
  | noMethod (cls name : String)
  | noMembers (type : String)
  | notIterable (type : String)
  | hookFailed (event text : String)
  | stepRuleFailed (text : String)
  | internal (text : String)
  /-- An error that a host raises in its own words. -/
  | host (text : String) (rule : Option String)
deriving DecidableEq, Repr

namespace Cause

def message : Cause → String
  | undefined name => "Undefined variable '" ++ name ++ "'"
  | tooFewArguments callee least got =>
    callee ++ "() expects at least " ++ toString least ++ " arguments but got " ++ toString got
  | tooManyArguments callee most got =>
    callee ++ "() expects at most " ++ toString most ++ " arguments but got " ++ toString got
  | wrongArity callee expected got =>
    callee ++ "() expects " ++ toString expected ++ " arguments but got " ++ toString got
  | unexpectedKeyword callee key =>
    callee ++ "() got an unexpected keyword argument '" ++ key ++ "'"
  | multipleValues callee key =>
    callee ++ "() got multiple values for argument '" ++ key ++ "'"
  | missingArgument callee param => callee ++ "() missing argument '" ++ param ++ "'"
  | noReceiver method _ => method ++ " must accept self"
  | notCallable type => "'" ++ type ++ "' object is not callable"
  | callsTooDeep => "Maximum recursion depth exceeded"
  | incomparable left right => "Cannot compare " ++ left ++ " and " ++ right
  | unhashable type => "Unhashable key type '" ++ type ++ "'"
  | notNumeral text _ => "Cannot convert string '" ++ text ++ "' to number"
  | notConvertible type _ => "Cannot convert " ++ type ++ " to number"
  | notFinite number _ => "Cannot convert " ++ number ++ " to integer"
  | notNumber type rule => rule ++ "() expects a number but got " ++ type
  | badDuration => "sleep() expects a non-negative duration"
  | zeroStep => "range() step must not be zero"
  | noLength type => "Object of type '" ++ type ++ "' has no len()"
  | emptySequence rule => rule ++ "() arg is an empty sequence"
  | strayReturn => "'return' outside function"
  | strayBreak => "'break' outside loop"
  | strayContinue => "'continue' outside loop"
  | memberNotSettable type => "Cannot set attribute on " ++ type
  | operands op left right =>
    "Unsupported operand types for " ++ op ++ ": " ++ left ++ " and " ++ right
  | operand op type => "Bad operand type for unary " ++ op ++ ": " ++ type
  | unknownOperator op => "Unknown operator '" ++ op ++ "'"
  | divisionByZero => "Division by zero"
  | moduloByZero => "Modulo by zero"
  | overflow op => "Numeric overflow in '" ++ op ++ "'"
  | invalidPower base exponent => "Invalid operands for '**': " ++ base ++ ", " ++ exponent
  | negativeShift _ => "Negative shift count"
  | notInString type => "'in <string>' requires string as left operand, not " ++ type
  | notContainer type => "Argument of type '" ++ type ++ "' is not iterable"
  | indexNotNumber type => "Indices must be numbers, not " ++ type
  | indexNotWhole number => "Index must be a whole number, got " ++ number
  | listIndex => "List index out of range"
  | stringIndex => "String index out of range"
  | listAssignmentIndex => "List assignment index out of range"
  | keyNotFound key => "Key not found: " ++ key
  | notSubscriptable type => "'" ++ type ++ "' object is not subscriptable"
  | notItemAssignable type => "'" ++ type ++ "' object does not support item assignment"
  | notSliceable type => "'" ++ type ++ "' object is not sliceable"
  | noNamespaceMember name => "Namespace has no member '" ++ name ++ "'"
  | noAttribute cls name => "'" ++ cls ++ "' object has no attribute '" ++ name ++ "'"
  | noMethod cls name => "Class '" ++ cls ++ "' has no method '" ++ name ++ "'"
  | noMembers type => "'" ++ type ++ "' object does not support member access"
  | notIterable type => "'" ++ type ++ "' object is not iterable"
  | hookFailed event text => "Extension hook '" ++ event ++ "' failed: " ++ text
  | stepRuleFailed text => "Extension step rule failed: " ++ text
  | internal text => "Internal interpreter error: " ++ text
  | host text _ => text

def rule : Cause → Option String
  | undefined _ => some "lookup"
  | tooFewArguments callee _ _ | tooManyArguments callee _ _ | wrongArity callee _ _
  | unexpectedKeyword callee _ | multipleValues callee _ | missingArgument callee _ => some callee
  | noReceiver _ rule | notNumeral _ rule | notConvertible _ rule | notFinite _ rule
  | notNumber _ rule | emptySequence rule => some rule
  | notCallable _ | callsTooDeep => some "call"
  | incomparable _ _ => some "compare"
  | unhashable _ => some "dict"
  | badDuration => some "sleep"
  | zeroStep => some "range"
  | noLength _ => some "len"
  | strayReturn => some "return"
  | strayBreak => some "break"
  | strayContinue => some "continue"
  | operands op _ _ | operand op _ | overflow op | negativeShift op => some op
  | unknownOperator _ => none
  | divisionByZero => some "/"
  | moduloByZero => some "%"
  | invalidPower _ _ => some "**"
  | notInString _ | notContainer _ => some "in"
  | indexNotNumber _ | indexNotWhole _ | listIndex | stringIndex | listAssignmentIndex
  | keyNotFound _ | notSubscriptable _ | notItemAssignable _ => some "index"
  | notSliceable _ => some "slice"
  | memberNotSettable _ | noNamespaceMember _ | noAttribute _ _ | noMethod _ _ | noMembers _ =>
    some "member"
  | notIterable _ => some "iterate"
  | hookFailed _ _ | stepRuleFailed _ => some "ext"
  | internal _ => some "internal"
  | host _ rule => rule

end Cause

/-- A failure of a program, with the place and the step where it happened as far as they are
known. -/
structure RuntimeError where
  cause : Cause
  location : Option Location
  step : Option Nat
deriving DecidableEq, Repr

namespace RuntimeError

def of (cause : Cause) : RuntimeError := ⟨cause, none, none⟩

/-- Places an error that has no place yet. -/
def attach (e : RuntimeError) (location : Option Location) : RuntimeError :=
  match e.location with
  | none => { e with location }
  | some _ => e

theorem attach_cause (e : RuntimeError) (location : Option Location) :
    (e.attach location).cause = e.cause := by
  unfold attach
  split <;> rfl

def message (e : RuntimeError) : String := e.cause.message

def rule (e : RuntimeError) : Option String := e.cause.rule

def line (e : RuntimeError) : Option Nat := e.location.map (·.line)

def text (e : RuntimeError) : String := headline "Runtime" e.line e.message

end RuntimeError

/-- What stops a computation: an error of the program, a nesting of values that has no end, or an
exception of the machinery below, told by its text. -/
inductive Fault where
  | error (e : RuntimeError)
  | endless
  | foreign (text : String)
deriving DecidableEq, Repr

namespace Fault

def of (cause : Cause) : Fault := .error (.of cause)

def attach (f : Fault) (location : Option Location) : Fault :=
  match f with
  | error e => error (e.attach location)
  | f => f

def text : Fault → String
  | error e => e.text
  | endless => "maximum recursion depth exceeded"
  | foreign text => text

end Fault

end LoopScript
