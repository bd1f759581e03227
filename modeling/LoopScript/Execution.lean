import LoopScript.Machine.Run

/-!
Interpreters, and the executions of programs on them. An execution runs until it pauses, and goes
on from there when it is resumed; once it has ended it stays as it is.
-/

namespace LoopScript

variable {σ : Type}

inductive SetupError where
  | budget
  | extension (e : ExtensionError)
deriving DecidableEq, Repr

namespace SetupError

def message : SetupError → String
  | budget => "budget must be >= 1"
  | extension e => e.message

end SetupError

/-- A machine, its setup, and the instructions spent of the current budget. -/
structure Interpreter (σ : Type) where
  setup : Setup σ
  machine : Machine σ
  count : Nat

namespace Interpreter

def defaultBudget : Nat := 100

/-- The objects that global names stand for, in the order of their definition. Every interpreter has
its own functions and its own copies of enumerations, while constants are shared. -/
def globalObjects (services : Services σ) (s : Store) : Table String Value × Store :=
  let functions := CoreFunction.all.map (·.name) ++ services.builtins.keys
  let (builtins, s) := functions.foldl (fun (t, s) name =>
    let (v, s) := s.alloc (.builtin name)
    (Table.put t name v, s)) (([] : Table String Value), s)
  let (globals, s) := services.enums.foldl (fun (t, s) (name, members) =>
    let (v, s) := s.alloc (.dict (members.map fun (n, v) => (.str n, v)))
    (Table.put t name v, s)) (builtins, s)
  (services.constants.foldl (fun t (name, v) => t.put name v) globals, s)

/-- An interpreter over the given services. No extension may take the name of a core function. -/
def create (services : Services σ) (print : String → σ → σ) (budget : Int) (verbose : Bool)
    (world : World σ) : Except SetupError (Interpreter σ) :=
  if budget < 1 then .error .budget
  else match services.builtins.keys.find? (coreBuiltins (σ := σ)).has with
    | some name => .error (.extension (.coreFunction name))
    | none =>
      let (globals, s) := globalObjects services world.store
      let (scope, s) := s.openScope none globals
      .ok {
        setup := ⟨services, print, budget.toNat, verbose⟩
        machine := ⟨{ world with store := s }, scope, [], none, .empty, [], 0⟩
        count := 0 }

def builtins (i : Interpreter σ) : List (Builtin σ) :=
  coreBuiltins.map (·.2) ++ i.setup.services.builtins.map (·.2)

end Interpreter

inductive Status (σ : Type) where
  | running
  | paused (w : Wait σ)
  | completed
  | failed (e : RuntimeError)
  | cancelled

namespace Status

def name : Status σ → String
  | running => "running"
  | paused _ => "paused"
  | completed => "completed"
  | failed _ => "failed"
  | cancelled => "cancelled"

def terminal : Status σ → Bool
  | running | paused _ => false
  | completed | failed _ | cancelled => true

def error? : Status σ → Option RuntimeError
  | failed e => some e
  | _ => none

end Status

/-- The run of one program. It is drained if its program has ended but its call was closed by
somebody else. -/
inductive Execution (σ : Type) where
  | fresh (p : Program)
  | suspended (r : Resumption)
  | drained
  | ended (s : Status σ)

namespace Execution

/-- What is left on a stack of calls that somebody else has emptied. -/
def emptyStack : String := "pop from empty list"

/-- The error of a fault, placed at the current statement and stamped with the last step. -/
def errorOf (m : Machine σ) (f : Fault) : RuntimeError :=
  let e := match f with
    | .error e => e.attach m.current
    | .endless => ⟨.callsTooDeep, m.current, none⟩
    | .foreign text => ⟨.internal text, m.current, none⟩
  match m.log.last with
  | some entry => { e with step := some entry.step }
  | none => e

/-- Reports a failure. An error raised by a handler of the report takes its place. -/
def report (setup : Setup σ) (f : Fault) (m : Machine σ) : RuntimeError × Machine σ :=
  let e := errorOf m f
  match Act.emit setup (.onError e) m with
  | .ok _ m => (e, m)
  | .error (.error e) m => (e, m)
  | .error f m => (errorOf m f, m)

/-- Opens the call of the module and says that the program starts. Calls that an earlier run has
left behind are discarded. -/
def openModule (setup : Setup σ) (p : Program) : Act σ Unit := do
  modify fun m => { m with
    calls := [⟨"<module>", m.globals, m.issued, none⟩]
    issued := m.issued + 1 }
  Act.emit setup (.programStart p (← get).globals)

def proceed (setup : Setup σ) (count : Nat) (m : Machine σ) : Program ⊕ Resumption → Halted σ
  | .inl p =>
    match openModule setup p m with
    | .error f m => ⟨.failed f, count, m⟩
    | .ok _ m =>
      match Act.block (σ := σ) p.statements m.globals .program with
      | .start t => run setup count (.task t) m
      | _ => ⟨.finished .normal, count, m⟩
  | .inr r => resumeFrom setup count r m

def close (setup : Setup σ) (m : Machine σ) :
    Except String (Status σ) × Execution σ × Machine σ :=
  match Act.emit setup .programEnd m with
  | .error f m =>
    let e := match f with
      | .error e => e
      | f => errorOf m f
    (.ok (.failed e), .ended (.failed e), m)
  | .ok _ m =>
    match m.calls with
    | [] => (.error emptyStack, .drained, m)
    | _ :: calls => (.ok .completed, .ended .completed, { m with calls })

def settle (setup : Setup σ) (h : Halt σ) (m : Machine σ) :
    Except String (Status σ) × Execution σ × Machine σ :=
  let fail (f : Fault) :=
    let (e, m) := report setup f m
    (.ok (.failed e), .ended (.failed e), m)
  match h with
  | .pause none r => (.ok .running, .suspended r, m)
  | .pause (some w) r => (.ok (.paused w), .suspended r, m)
  | .failed f => fail f
  | .finished .normal => close setup m
  | .finished f => fail (Act.stray f m.current)

def advance (i : Interpreter σ) (from_ : Program ⊕ Resumption) :
    Except String (Status σ) × Execution σ × Interpreter σ :=
  let h := proceed i.setup i.count i.machine from_
  let (s, x, m) := settle i.setup h.halt h.machine
  (s, x, { i with machine := m, count := h.count })

/-- Runs an execution up to its next pause. The answer is an error only if the call of the module is
gone when the program ends; resumed once more, the execution is completed. -/
def resume (x : Execution σ) (i : Interpreter σ) :
    Except String (Status σ) × Execution σ × Interpreter σ :=
  match x with
  | .fresh p => advance i (.inl p)
  | .suspended r => advance i (.inr r)
  | .drained => (.ok .completed, .ended .completed, i)
  | .ended s => (.ok s, x, i)

/-- Gives an execution up, without a trace. -/
def cancel : Execution σ → Status σ × Execution σ
  | .ended s => (s, .ended s)
  | _ => (.cancelled, .ended .cancelled)

def status? : Execution σ → Option (Status σ)
  | .ended s => some s
  | _ => none

end Execution

end LoopScript
