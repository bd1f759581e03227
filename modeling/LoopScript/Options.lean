import LoopScript.Decimal.Reader
import LoopScript.Pacer

/-!
The options of the command line. The name of an option may be cut short as long as it stays
unambiguous, its value follows it or an equals sign, and a double dash ends the options.
-/

namespace LoopScript

structure Options where
  program : Option String
  isSource : Bool
  verbose : Bool
  tracebackJson : Bool
  extensions : List String
  budget : Int
  tick : Float
  realtime : Bool

namespace Options

def initial : Options :=
  ⟨none, false, false, false, [], Interpreter.defaultBudget, Pacer.defaultTick, false⟩

/-- Why there are no options. -/
inductive Refusal where
  | help
  | usage
deriving DecidableEq, Repr

inductive Switch where
  | source | verbose | tracebackJson | realtime
deriving DecidableEq, Repr

inductive Setting where
  | ext | budget | tick
deriving DecidableEq, Repr

inductive Name where
  | help
  | switch (s : Switch)
  | setting (s : Setting)
deriving DecidableEq, Repr

def spellings : List (String × Name) :=
  [("-h", .help), ("--help", .help), ("-source", .switch .source), ("--source", .switch .source),
    ("-verbose", .switch .verbose), ("--verbose", .switch .verbose),
    ("--traceback-json", .switch .tracebackJson), ("--ext", .setting .ext),
    ("--budget", .setting .budget), ("--tick", .setting .tick), ("--realtime", .switch .realtime)]

/-- A name and the value that is joined to it by an equals sign. -/
def splitValue (arg : String) : String × Option String :=
  match arg.toList.dropWhile (· ≠ '=') with
  | [] => (arg, none)
  | _ :: value => (String.ofList (arg.toList.takeWhile (· ≠ '=')), some (String.ofList value))

def isDigit (c : Char) : Bool := (Text.digit? c).isSome

/-- A dash, then digits, which may hold a point that is not at their end. A line feed may follow. -/
def isNegativeNumber (arg : String) : Bool :=
  match arg.toList with
  | '-' :: cs =>
    let cs := if cs.getLast? = some '\n' then cs.dropLast else cs
    let whole := cs.takeWhile isDigit
    match cs.dropWhile isDigit with
    | [] => !whole.isEmpty
    | '.' :: places => !places.isEmpty && places.all isDigit
    | _ => false
  | _ => false

/-- How an argument reads by itself. -/
inductive Word where
  | plain
  | option (name : Name) (value : Option String)
  | ambiguous
  | unknown
deriving DecidableEq, Repr

def candidates (name : String) : List Name :=
  (spellings.filter fun (spelling, _) => spelling.startsWith name).map (·.2)

/-- The option of one letter, which may be repeated behind its dash. All else there is a value, and
it takes none. -/
def letters (arg : String) : Word :=
  let more := arg.toList.drop 2
  .option .help (if more.all (· = 'h') then none else some (String.ofList more))

/-- Whatever starts with a dash is an option, unless it is a negative number or holds a space. A
name that is cut short takes a joined value only after two dashes. -/
def Word.of (arg : String) : Word :=
  let (name, value) := splitValue arg
  match spellings.lookup arg, spellings.lookup name with
  | some o, _ => .option o none
  | none, some o => .option o value
  | none, none =>
    if !arg.startsWith "-" || arg = "-" then .plain
    else if arg.startsWith "-h" then letters arg
    else
      let (name, value) := if arg.startsWith "--" then (name, value) else (arg, none)
      match candidates name with
      | [o] => .option o value
      | _ :: _ :: _ => .ambiguous
      | [] => if isNegativeNumber arg || arg.contains ' ' then .plain else .unknown

def turnOn (o : Options) : Switch → Options
  | .source => { o with isSource := true }
  | .verbose => { o with verbose := true }
  | .tracebackJson => { o with tracebackJson := true }
  | .realtime => { o with realtime := true }

def assign (o : Options) (s : Setting) (value : String) : Option Options :=
  match s with
  | .ext => some { o with extensions := o.extensions ++ [value] }
  | .budget => (Decimal.readInt? value).map fun n => { o with budget := n }
  | .tick => (Decimal.read? value).map fun x => { o with tick := x }

structure Reading where
  options : Options
  /-- Whether the program may still come, or was the last argument read. -/
  fresh : Bool
  /-- Whether an argument has been passed over that has no meaning. -/
  excess : Bool

namespace Reading

def behind (r : Reading) (options : Options) : Reading :=
  { r with options, fresh := options.program.isNone }

def pass (r : Reading) : Reading :=
  { r with fresh := r.options.program.isNone, excess := true }

/-- Takes the only argument that is no option. -/
def setProgram (r : Reading) (arg : String) : Reading :=
  match r.options.program with
  | none => { r with options := { r.options with program := some arg }, fresh := true }
  | some _ => r.pass

/-- Takes what follows the double dash. -/
def finish (r : Reading) : List String → Reading
  | [] => if r.fresh then r else r.pass
  | [arg] => r.setProgram arg
  | _ => r.pass

def result (r : Reading) : Except Refusal Options :=
  if r.excess then .error .usage else .ok r.options

/-- Reads the arguments one after the other. What has no meaning is passed over until the end, as
there may be a question for help behind it. -/
def read (r : Reading) : List String → Except Refusal Options
  | [] => r.result
  | arg :: args =>
    if arg = "--" then (r.finish args).result
    else match Word.of arg with
    | .plain => (r.setProgram arg).read args
    | .ambiguous | .unknown => r.pass.read args
    | .option .help none => .error .help
    | .option (.switch s) none => (r.behind (r.options.turnOn s)).read args
    | .option (.setting s) (some value) =>
      match r.options.assign s value with
      | some o => (r.behind o).read args
      | none => .error .usage
    | .option (.setting s) none =>
      match args with
      | [] => .error .usage
      | value :: rest =>
        if value = "--" ∨ Word.of value ≠ .plain then .error .usage
        else match r.options.assign s value with
          | some o => (r.behind o).read rest
          | none => .error .usage
    | _ => .error .usage

end Reading

/-- The options that the arguments of a command line stand for. An ambiguous name is refused before
any other argument is looked at. -/
def ofArguments (args : List String) : Except Refusal Options :=
  if (args.takeWhile (· ≠ "--")).any (Word.of · = .ambiguous) then .error .usage
  else Reading.read ⟨initial, true, false⟩ args

def usage : String :=
  "usage: loop [-h] [-source] [-verbose] [--traceback-json] [--ext PATH] [--budget BUDGET]\n" ++
    "            [--tick TICK] [--realtime] [program]\n"

end Options

end LoopScript
