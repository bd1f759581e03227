import LoopScript.Services

/-!
Extensions as a host finds them: which interface they are written for, and what they register.
-/

namespace LoopScript

variable {σ : Type}

/-- Registrations made one after the other, up to the first that is refused. Those before it stay
made. -/
abbrev Registration (σ α : Type) := EStateM ExtensionError (Services σ) α

namespace Registration

def of (change : Services σ → Except ExtensionError (Services σ)) : Registration σ Unit := do
  match change (← get) with
  | .ok s => set s
  | .error e => throw e

def metadata (m : Metadata) : Registration σ Unit :=
  modify (·.addMetadata m)

def builtin (o : Offer σ) : Registration σ Unit := of (·.registerBuiltin o)

def enum (name : String) (members : List (Atom × Value)) : Registration σ Unit :=
  of (·.registerEnum name members)

def constant (name : String) (v : Value) : Registration σ Unit := of (·.registerConstant name v)

end Registration

structure Extension (σ : Type) where
  version : Int
  name : Option String
  /-- What it registers under its name, unless it lacks an entry point. -/
  register : Option (String → Registration σ Unit)

namespace Extension

/-- Loads an extension and gives the name that it goes by. Until it has a name of its own, messages
call it by the given one. -/
def load (x : Extension σ) (fallback : String) : Registration σ String := do
  if x.version ≠ Services.apiVersion then
    throw (.version fallback x.version Services.apiVersion)
  match x.register with
  | none => throw (.noEntryPoint fallback)
  | some register =>
    let name := x.name.getD fallback
    register name
    return name

end Extension

end LoopScript
