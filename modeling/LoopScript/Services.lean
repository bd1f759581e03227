import LoopScript.Extension

/-!
The registry of extensions. A global name belongs to one function, one enumeration or one constant,
and a registration that is refused changes nothing.
-/

namespace LoopScript

/-- All that extensions have registered, each kind in the order of registration. -/
structure Services (σ : Type) where
  metadata : List Metadata
  builtins : Table String (Builtin σ)
  enums : Table String (Table String Value)
  constants : Table String Value
  hooks : List (Hook σ)
  rules : List (StepRule σ)

/-- A function as an extension offers it; its counts are checked on registration. -/
structure Offer (σ : Type) where
  name : String
  least : Int
  most : Option Int
  suspends : Bool
  doc : String
  keywords : List String
  action : Action σ

def sortNames (names : List String) : List String :=
  names.mergeSort fun a b => !(b < a)

namespace Services

variable {σ : Type}

def apiVersion : Nat := 1

def empty : Services σ := ⟨[], [], [], [], [], []⟩

def isTaken (s : Services σ) (name : String) : Bool :=
  s.builtins.has name || s.enums.has name || s.constants.has name

def ensureFree (s : Services σ) (name : String) : Except ExtensionError Unit :=
  if !Text.isIdentifier name then .error (.globalName name)
  else if s.isTaken name then .error (.globalTaken name)
  else .ok ()

def addMetadata (s : Services σ) (m : Metadata) : Services σ :=
  { s with metadata := s.metadata ++ [m] }

/-- Registers a function in the registry of functions alone. -/
def addBuiltin (s : Services σ) (o : Offer σ) : Except ExtensionError (Services σ) :=
  if !Text.isIdentifier o.name then .error (.functionName o.name)
  else if s.builtins.has o.name then .error (.functionTaken o.name)
  else if o.least < 0 ∨ o.most.any (· < o.least) then .error (.arity o.name)
  else
    let b : Builtin σ :=
      ⟨o.name, o.least.toNat, o.most.map Int.toNat, o.suspends, o.doc, o.keywords, o.action⟩
    .ok { s with builtins := s.builtins.put o.name b }

def registerBuiltin (s : Services σ) (o : Offer σ) : Except ExtensionError (Services σ) := do
  s.ensureFree o.name
  s.addBuiltin o

/-- How a member's key is shown that is no name. -/
def showKey : Atom → String
  | .str t => Text.quoted t
  | .num x => Decimal.text x
  | a => a.text

/-- The names of members whose keys are all identifiers. -/
def memberNames (enum : String) : List (Atom × Value) →
    Except ExtensionError (List (String × Value))
  | [] => .ok []
  | (.str t, v) :: rest => do
    if Text.isIdentifier t then .ok ((t, v) :: (← memberNames enum rest))
    else .error (.enumMember enum (showKey (.str t)))
  | (a, _) :: _ => .error (.enumMember enum (showKey a))

def registerEnum (s : Services σ) (name : String) (members : List (Atom × Value)) :
    Except ExtensionError (Services σ) := do
  s.ensureFree name
  let named ← memberNames name members
  .ok { s with enums := s.enums.put name (Table.ofList named) }

def registerConstant (s : Services σ) (name : String) (v : Value) :
    Except ExtensionError (Services σ) := do
  s.ensureFree name
  .ok { s with constants := s.constants.put name v }

/-- Puts a hook behind all those of at least its priority. -/
def insertHook (h : Hook σ) : List (Hook σ) → List (Hook σ)
  | [] => [h]
  | g :: gs => if g.priority < h.priority then h :: g :: gs else g :: insertHook h gs

def onEvent (s : Services σ) (event : String) (priority : Int)
    (handle : Event σ → World σ → Option Fault × World σ) : Except ExtensionError (Services σ) :=
  match EventKind.ofName? event with
  | none => .error (.unknownEvent event)
  | some kind => .ok { s with hooks := insertHook ⟨kind, priority, handle⟩ s.hooks }

def everySteps (s : Services σ) (every : Int)
    (handle : StepContext → World σ → Option Fault × World σ) :
    Except ExtensionError (Services σ) :=
  if every ≤ 0 then .error .stepCount
  else .ok { s with rules := s.rules ++ [⟨every.toNat, handle⟩] }

def handlers (s : Services σ) (kind : EventKind) : List (Hook σ) :=
  s.hooks.filter (·.kind = kind)

def globalNames (s : Services σ) : List String :=
  sortNames s.builtins.keys ++ sortNames s.enums.keys ++ sortNames s.constants.keys

end Services

end LoopScript
