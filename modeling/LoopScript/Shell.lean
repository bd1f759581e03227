import LoopScript.Farm.Library
import LoopScript.Options
import LoopScript.Repl
import LoopScript.Surroundings
import LoopScript.Traceback

/-!
The command that runs a program, or an interactive session, as a machine of its own. Whoever drives
it carries out its effects, gives it a line when it is reading, and lets it tick when it is running.
-/

namespace LoopScript

inductive Effect where
  | out (text : String)
  | err (text : String)
  | nap (seconds : Float)

/-- The host of programs that a command runs: the effects to be carried out, and a farm. -/
structure Console where
  effects : Array Effect
  farm : Farm Float

namespace Console

def emit (e : Effect) (c : Console) : Console :=
  { c with effects := c.effects.push e }

def farmAccess : Farm.Access Console :=
  ⟨Console.farm, fun f c => { c with farm := f }⟩

def initial : Console := ⟨#[], Farm.meadow Farm.defaultSize []⟩

end Console

inductive Phase where
  | exited (code : Nat)
  | reading (held : List String) (i : Interpreter Console)
  | running (interactive : Bool) (pacer : Pacer Console Float) (s : Subject Console)

structure Shell where
  options : Options
  effects : List Effect
  phase : Phase

namespace Shell

def banner : String :=
  "\x1b[38;2;153;221;255mLOOP\x1b[0m REPL. Enter statements, blank line to run buffer, " ++
    ":builtins to list builtins.\n"

def prompt (held : List String) : String :=
  if held.isEmpty then "\x1b[38;2;153;221;255m>>>\x1b[0m "
  else "\x1b[38;2;153;221;255m...\x1b[0m "

/-- Takes over the effects that programs have had on their host. -/
def takeEffects (i : Interpreter Console) : List Effect × Interpreter Console :=
  let w := i.machine.world
  let w := { w with host := { w.host with effects := #[] } }
  (i.machine.world.host.effects.toList, { i with machine := { i.machine with world := w } })

def exit (o : Options) (effects : List Effect) (code : Nat) : Shell :=
  ⟨o, effects, .exited code⟩

def fail (o : Options) (message : String) : Shell :=
  exit o [.err (message ++ "\n")] 1

def ask (o : Options) (effects : List Effect) (held : List String) (i : Interpreter Console) :
    Shell :=
  ⟨o, effects ++ [.out (prompt held)], .reading held i⟩

def reportFailure (o : Options) (interactive : Bool) (m : Machine Console) (e : RuntimeError) :
    List Effect :=
  let text := Effect.err (m.traceback e o.verbose ++ "\n")
  if o.tracebackJson && !interactive then [text, .err (m.tracebackJson e ++ "\n")] else [text]

/-- Goes on after a run: a session asks for the next line, and any other command exits. -/
def afterRun (o : Options) (interactive : Bool) (effects : List Effect) (ok : Bool)
    (i : Interpreter Console) : Shell :=
  if interactive then ask o effects [] i else exit o effects (if ok then 0 else 1)

def launch (o : Options) (interactive : Bool) (source file : String) (i : Interpreter Console) :
    Shell :=
  match Program.ofSource source file with
  | .error e => afterRun o interactive [.err (e.text ++ "\n")] false i
  | .ok p =>
    let sleep := if o.realtime then some fun t (c : Console) => c.emit (.nap t) else none
    match Pacer.create o.tick sleep with
    | .error e => fail o e
    | .ok pacer => ⟨o, [], .running interactive pacer ⟨.fresh p, i⟩⟩

def tick (s : Shell) : Shell :=
  match s.phase with
  | .running interactive pacer x =>
    let (status, pacer, x) := pacer.step id x
    let (effects, i) := takeEffects x.interpreter
    match status with
    | .error e => fail s.options e
    | .ok (.failed e) =>
      afterRun s.options interactive (effects ++ reportFailure s.options interactive i.machine e)
        false i
    | .ok status =>
      if status.terminal then afterRun s.options interactive effects true i
      else ⟨s.options, effects, .running interactive pacer { x with interpreter := i }⟩
  | _ => { s with effects := [] }

/-- Text of at least the given length, filled up with spaces. -/
def padRight (width : Nat) (t : String) : String :=
  t ++ String.ofList (List.replicate (width - t.length) ' ')

/-- One line about a function. -/
def describe (b : Builtin Console) : String :=
  let kind := if b.suspends then "suspends" else "instant"
  let doc := if b.doc.isEmpty then "" else "  " ++ b.doc
  "  " ++ padRight 16 b.name ++ " " ++ kind ++ doc ++ "\n"

def listing (i : Interpreter Console) : List Effect :=
  (i.builtins.mergeSort fun a b => !(b.name < a.name)).map fun b => .out (describe b)

/-- Gives a line to a command that is reading, or tells it that there are no more. -/
def feed (line : Option String) (s : Shell) : Shell :=
  match s.phase, line with
  | .reading _ _, none => exit s.options [.out "\n"] 0
  | .reading held i, some line =>
    match Repl.feed held line with
    | (.quit, _) => exit s.options [] 0
    | (.builtins, held) => ask s.options (listing i) held i
    | (.run source, _) => launch s.options true source Repl.file i
    | (.more, held) => ask s.options [] held i
  | _, _ => { s with effects := [] }

variable {m : Type → Type} [Monad m]

/-- Runs what the options name: a source text, a file, or else a session. -/
def begin (place : Surroundings m Console) (o : Options) (i : Interpreter Console) : m Shell := do
  match o.program, o.isSource with
  | none, true => return fail o "-source requires a program string"
  | none, false => return ask o [.out banner] [] i
  | some source, true => return launch o false source "<string>" i
  | some file, false =>
    match ← place.read file with
    | .error e => return fail o ("Failed to read " ++ file ++ ": " ++ e.message file)
    | .ok source => return launch o false source file i

/-- Sets up an interpreter with the extensions that the options name. -/
def prepare (place : Surroundings m Console) (o : Options) :
    m (Except String (Interpreter Console)) := do
  if o.budget < 1 then return .error "--budget must be >= 1"
  else if o.tick ≤ 0 then return .error "--tick must be positive"
  else
    match ← place.load o.extensions with
    | .error e => return .error ("ExtensionError: " ++ e.message)
    | .ok services =>
      let print (line : String) := Console.emit (.out (line ++ "\n"))
      return (Interpreter.create services print o.budget o.verbose ⟨.empty, .initial⟩).mapError
        fun e => "ExtensionError: " ++ e.message

def start (place : Surroundings m Console) (args : List String) : m Shell := do
  match Options.ofArguments args with
  | .error .help => return exit .initial [.out Options.usage] 0
  | .error .usage => return exit .initial [.err Options.usage] 2
  | .ok o =>
    match ← prepare place o with
    | .error message => return fail o message
    | .ok i => begin place o i

end Shell

end LoopScript
