import LoopScript.Services

/-!
The state of a machine that runs programs: the world, the calls in progress, the log of steps.
-/

namespace LoopScript

/-- A call in progress. The module itself is called from nowhere. -/
structure Activation where
  name : String
  scope : ScopeId
  id : Nat
  callSite : Option Location
deriving Inhabited

structure LogEntry where
  step : Nat
  activation : Option Nat
  location : Location
  rule : String
  snapshot : Option (List (String × String))

/-- The log of started statements: the full history if it is kept, and in any case the last entry
and the last one of each call in progress. -/
structure StepLog where
  history : Array LogEntry
  next : Nat
  last : Option LogEntry
  tails : Table Nat LogEntry

namespace StepLog

def empty : StepLog := ⟨#[], 0, none, []⟩

def record (keep : Bool) (e : LogEntry) : StepLog → StepLog
  | ⟨history, next, _, tails⟩ =>
    let tails := match e.activation with
      | some id => tails.put id e
      | none => tails
    ⟨if keep then history.push e else history, next + 1, some e, tails⟩

def forget (log : StepLog) (id : Nat) : StepLog :=
  { log with tails := log.tails.erase id }

end StepLog

/-- How a machine is set up; no program changes it. -/
structure Setup (σ : Type) where
  services : Services σ
  /-- Where printed lines go. -/
  print : String → σ → σ
  /-- How many instructions may run before control goes back to the host. -/
  budget : Nat
  verbose : Bool

structure Machine (σ : Type) where
  world : World σ
  globals : ScopeId
  /-- The names that statements have declared global. -/
  forced : List String
  current : Option Location
  log : StepLog
  /-- The calls in progress, innermost first. -/
  calls : List Activation
  issued : Nat

/-- How many calls may be open besides the module. -/
def callLimit : Nat := 1000

/-- Actions on a machine. What a failed action has changed stays changed. -/
abbrev Act (σ : Type) := EStateM Fault (Machine σ)

namespace Act

variable {σ : Type}

def store : Act σ Store := do
  return (← get).world.store

/-- Changes the world. The machine lets go of it meanwhile, so that it can be changed in place. -/
def onWorld {α : Type} (f : World σ → α × World σ) : Act σ α :=
  modifyGet fun ⟨world, globals, forced, current, log, calls, issued⟩ =>
    let (a, world) := f world
    (a, ⟨world, globals, forced, current, log, calls, issued⟩)

def onStore {α : Type} (f : Store → α × Store) : Act σ α :=
  onWorld fun ⟨store, host⟩ =>
    let (a, store) := f store
    (a, ⟨store, host⟩)

def modifyStore (f : Store → Store) : Act σ Unit :=
  onStore fun s => ((), f s)

/-- The result of a computation whose errors belong to the given place. -/
def placed {α : Type} (loc : Location) (x : Except Fault α) : Act σ α :=
  match x with
  | .ok a => pure a
  | .error f => throw (f.attach (some loc))

def fail {α : Type} (loc : Location) (c : Cause) : Act σ α :=
  throw (.error ⟨c, some loc, none⟩)

def reading {α : Type} (loc : Location) (f : Store → Except Fault α) : Act σ α := do
  placed loc (f (← store))

def alloc (o : Obj) : Act σ Value :=
  onStore (·.alloc o)

/-- A computation that gives a value or a new object. -/
def making (loc : Location) (f : Store → Except Fault Made) : Act σ Value := do
  match ← reading loc f with
  | .value v => return v
  | .object o => alloc o

def openScope (parent : ScopeId) (bindings : Table String Value) : Act σ ScopeId :=
  onStore (·.openScope (some parent) bindings)

/-- Calls handlers in turn, up to the first that fails. -/
def callHooks (e : Event σ) : List (Hook σ) → Act σ Unit
  | [] => pure ()
  | h :: hs => do
    match ← onWorld (h.handle e) with
    | none => callHooks e hs
    | some (.error err) => throw (.error err)
    | some f => throw (.error ⟨.hookFailed e.kind.name f.text, (← get).current, none⟩)

def emit (setup : Setup σ) (e : Event σ) : Act σ Unit :=
  callHooks e (setup.services.handlers e.kind)

def callRules (c : StepContext) : List (StepRule σ) → Act σ Unit
  | [] => pure ()
  | r :: rs => do
    if c.step % r.every = 0 then
      match ← onWorld (r.handle c) with
      | none => callRules c rs
      | some (.error err) => throw (.error err)
      | some f => throw (.error ⟨.stepRuleFailed f.text, c.location, none⟩)
    else callRules c rs

def record (keep : Bool) (rule : String) (loc : Location)
    (snapshot : Option (List (String × String))) : Act σ Nat :=
  modifyGet fun ⟨world, globals, forced, current, log, calls, issued⟩ =>
    let step := log.next
    let entry := ⟨step, calls.head?.map (·.id), loc, rule, snapshot⟩
    (step, ⟨world, globals, forced, current, log.record keep entry, calls, issued⟩)

/-- The bindings of the innermost call. -/
def snapshot (loc : Location) : Act σ (Option (List (String × String))) := do
  match (← get).calls with
  | [] => return none
  | a :: _ => some <$> reading loc (·.snapshot a.scope)

/-- Records that a statement starts. A verbose log shows the bindings of the innermost call. -/
def logStep (setup : Setup σ) (rule : String) (loc : Location) : Act σ Unit := do
  let bindings ← if setup.verbose then snapshot loc else pure none
  let step ← record setup.verbose rule loc bindings
  callRules ⟨step, rule, some loc⟩ setup.services.rules

def enter (name : String) (scope : ScopeId) (loc : Location) : Act σ Unit := do
  let m ← get
  if callLimit < m.calls.length then fail loc .callsTooDeep
  else set { m with
    calls := ⟨name, scope, m.issued, some loc⟩ :: m.calls
    issued := m.issued + 1 }

def exit : Act σ Unit := do
  let m ← get
  match m.calls with
  | [] => throw (.foreign "pop from empty list")
  | a :: calls => set { m with calls, log := m.log.forget a.id }

def assign (scope : ScopeId) (name : String) (v : Value) : Act σ Unit := do
  if name ∈ (← get).forced then modifyStore (·.setGlobal scope name v)
  else modifyStore (·.assign scope name v)

end Act

end LoopScript
