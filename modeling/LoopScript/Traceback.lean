import LoopScript.Execution
import LoopScript.Text.Json

/-!
Tracebacks: the calls in progress when a run failed, oldest first.
-/

namespace LoopScript

/-- A call in a traceback: it points at the last statement that it started, or at its call site if
it started none. -/
structure TracebackFrame where
  name : String
  location : Option Location
  entry : Option LogEntry

def padded (width n : Nat) : String :=
  let digits := Nat.toDigits 10 n
  String.ofList (List.replicate (width - digits.length) '0' ++ digits)

def LogEntry.stateId (e : LogEntry) : String := "s_" ++ padded 6 e.step

def frameId (n : Nat) : String := "f_" ++ padded 4 n

namespace TracebackFrame

def lines (f : TracebackFrame) (verbose : Bool) : List String :=
  let place := match f.location, f.entry with
    | none, _ => ["  <unknown location> in " ++ f.name]
    | some loc, entry =>
      let statement := (entry.map (·.location.statement)).getD ""
      ("  File \"" ++ loc.file ++ "\", line " ++ toString loc.line ++ ", in " ++ f.name) ::
        (if statement.isEmpty then [] else ["    " ++ statement])
  let state := match verbose, f.entry with
    | true, some e =>
      let index := "    State log index: " ++ toString e.step ++ "  State id: " ++ e.stateId
      match e.snapshot with
      | none => [index]
      | some env =>
        let bindings := env.map fun (name, text) => name ++ "=" ++ text
        [index, "    Env snapshot: " ++ String.intercalate ", " bindings]
    | _, _ => []
  place ++ state

open Text (Json)

def json (f : TracebackFrame) (index : Nat) : Json :=
  let place := match f.location with
    | none => []
    | some loc => [("source_location", .record [("file", .str loc.file), ("line", .nat loc.line),
        ("statement", .str loc.statement)])]
  let state := match f.entry with
    | none => []
    | some e =>
      [("state_id", .str e.stateId), ("step_index", .nat e.step), ("rule", .str e.rule)] ++
        match e.snapshot with
        | none => []
        | some env => [("env_snapshot", .record (env.map fun (name, text) => (name, .str text)))]
  .record ([("frame_index", .nat index), ("name", .str f.name)] ++ place ++ state)

end TracebackFrame

namespace Machine

variable {σ : Type}

def tracebackFrames (m : Machine σ) : List TracebackFrame :=
  m.calls.reverse.map fun a =>
    let entry := m.log.tails.get? a.id
    ⟨a.name, (entry.map (·.location)).or a.callSite, entry⟩

def traceback (m : Machine σ) (e : RuntimeError) (verbose : Bool) : String :=
  "\n".intercalate (["Traceback (most recent call last):"] ++
    m.tracebackFrames.flatMap (·.lines verbose) ++ [e.text])

open Text (Json)

def tracebackJson (m : Machine σ) (e : RuntimeError) : String :=
  let option {α : Type} (f : α → Json) (a : Option α) : Json := (a.map f).getD .null
  let error := Json.record [("kind", .str "Runtime"), ("message", .str e.message),
    ("line", option .nat e.line), ("rule", option .str e.rule),
    ("failing_step_index", option .nat e.step)]
  let frames := m.tracebackFrames.zipIdx.map fun (f, i) => f.json i
  Json.text (.record [("error", error), ("traceback", .list frames)])

end Machine

end LoopScript
