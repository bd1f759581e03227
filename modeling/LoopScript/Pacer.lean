import LoopScript.Execution

/-!
Pacers drive an execution tick by tick. A tick either goes to a wait that is pending or resumes the
execution once, so a wait that never ends stalls the program but not its host. Time may be measured
in numbers of any kind.
-/

namespace LoopScript

variable {σ κ : Type}

/-- A condition that a program waits for. To ask whether it holds may change the world. -/
abbrev Condition (σ : Type) := World σ → Bool × World σ

structure Pacer (σ κ : Type) where
  tick : κ
  /-- Called with the length of every tick, if ticks are to take real time. -/
  sleep : Option (κ → σ → σ)
  /-- What is left of the time to wait for. -/
  left : κ
  condition : Option (Condition σ)
  ticks : Nat
  budgetPauses : Nat
  waits : Nat
  elapsed : κ
  last : Option (Status σ)

structure Subject (σ : Type) where
  execution : Execution σ
  interpreter : Interpreter σ

namespace Subject

def world (s : Subject σ) : World σ := s.interpreter.machine.world

def setWorld (s : Subject σ) (w : World σ) : Subject σ :=
  let machine := { s.interpreter.machine with world := w }
  { s with interpreter := { s.interpreter with machine } }

def resume (s : Subject σ) : Except String (Status σ) × Subject σ :=
  let (r, x, i) := s.execution.resume s.interpreter
  (r, ⟨x, i⟩)

def cancel (s : Subject σ) : Status σ × Subject σ :=
  let (r, x) := s.execution.cancel
  (r, { s with execution := x })

end Subject

/-- What a tick does for the program: it asks a condition whether it holds, or resumes the
execution. -/
inductive Deed (σ : Type) where
  | poll (c : Condition σ) (holds : Bool)
  | resume

/-- A tick that is over. -/
structure Turn (σ κ : Type) where
  /-- What the tick has done, in order. -/
  deeds : List (Deed σ)
  answer : Except String (Status σ)
  pacer : Pacer σ κ
  subject : Subject σ

namespace Pacer

section

variable [OfScientific κ] [LE κ] [DecidableLE κ] [LT κ] [DecidableLT κ]

/-- Waits shorter than this are over. -/
def epsilon : κ := 1e-9

/-- A pacer that has not ticked yet; its ticks must have a length. -/
def create (tick : κ) (sleep : Option (κ → σ → σ)) : Except String (Pacer σ κ) :=
  if tick ≤ 0.0 then .error "tick must be positive"
  else .ok ⟨tick, sleep, 0.0, none, 0, 0, 0, 0.0, none⟩

end

section

variable [OfScientific κ] [LT κ] [DecidableLT κ]

/-- Whether there is time left that is worth waiting for. -/
def counting (p : Pacer σ κ) : Bool :=
  epsilon < p.left

def waiting (p : Pacer σ κ) : Bool :=
  p.counting || p.condition.isSome

/-- Waits for what the execution has paused for. -/
def beginWait (ofSeconds : Float → κ) (p : Pacer σ κ) : Wait σ → Pacer σ κ
  | .seconds x => { p with left := if 0.0 < ofSeconds x then ofSeconds x else 0.0 }
  | .condition c => { p with condition := some c }

end

/-- The text of an answer that is missing although a wait is pending. -/
def noStatus : String := "no status is known"

/-- The answer of a tick that goes to a pending wait. -/
def repeated (p : Pacer σ κ) : Except String (Status σ) :=
  match p.last with
  | some status => .ok status
  | none => .error noStatus

variable [OfScientific κ] [LT κ] [DecidableLT κ] [Add κ] [Sub κ]

def beginTick (p : Pacer σ κ) (s : Subject σ) : Pacer σ κ × Subject σ :=
  let s := match p.sleep with
    | none => s
    | some sleep => s.setWorld { s.world with host := sleep p.tick s.world.host }
  ({ p with ticks := p.ticks + 1, elapsed := p.elapsed + p.tick }, s)

/-- Counts a tick down, if there is time to wait for. -/
def countDown (p : Pacer σ κ) : Pacer σ κ :=
  if p.counting then
    let left := p.left - p.tick
    { p with left := if epsilon < left then left else 0.0 }
  else p

/-- What a pacer keeps of the answer of the execution. -/
def note (ofSeconds : Float → κ) (p : Pacer σ κ) (status : Status σ) : Pacer σ κ :=
  let p := { p with last := some status }
  match status with
  | .running => { p with budgetPauses := p.budgetPauses + 1 }
  | .paused w => { p with waits := p.waits + 1 }.beginWait ofSeconds w
  | _ => p

def resume (ofSeconds : Float → κ) (p : Pacer σ κ) (s : Subject σ) :
    Except String (Status σ) × Pacer σ κ × Subject σ :=
  match s.resume with
  | (.error e, s) => (.error e, p, s)
  | (.ok status, s) => (.ok status, p.note ofSeconds status, s)

/-- One tick: time that is left is counted down, then a pending condition is asked, and what still
waits keeps the execution from being resumed. -/
def turn (ofSeconds : Float → κ) (p : Pacer σ κ) (s : Subject σ) : Turn σ κ :=
  let (p, s) := p.beginTick s
  let p := p.countDown
  if p.counting then ⟨[], p.repeated, p, s⟩
  else match p.condition with
    | none =>
      let (r, p, s) := p.resume ofSeconds s
      ⟨[.resume], r, p, s⟩
    | some c =>
      let (holds, w) := c s.world
      let s := s.setWorld w
      if holds then
        let (r, p, s) := { p with condition := none }.resume ofSeconds s
        ⟨[.poll c true, .resume], r, p, s⟩
      else ⟨[.poll c false], p.repeated, p, s⟩

def step (ofSeconds : Float → κ) (p : Pacer σ κ) (s : Subject σ) :
    Except String (Status σ) × Pacer σ κ × Subject σ :=
  let t := p.turn ofSeconds s
  (t.answer, t.pacer, t.subject)

def cancel (p : Pacer σ κ) (s : Subject σ) : Status σ × Pacer σ κ × Subject σ :=
  let (status, s) := s.cancel
  (status, { p with last := some status }, s)

/-- Ticks until the execution has ended, and gives it up after `n` more ticks. -/
def runFor (ofSeconds : Float → κ) (n : Nat) (p : Pacer σ κ) (s : Subject σ) :
    Except String (Status σ) × Pacer σ κ × Subject σ :=
  match n with
  | 0 =>
    let (status, p, s) := p.cancel s
    (.ok status, p, s)
  | n + 1 =>
    match p.step ofSeconds s with
    | (.error e, p, s) => (.error e, p, s)
    | (.ok status, p, s) =>
      if status.terminal then (.ok status, p, s) else p.runFor ofSeconds n s

/-- Ticks until the execution has ended, and gives it up once the pacer has ticked `limit` times. -/
def runUntil (ofSeconds : Float → κ) (limit : Nat) (p : Pacer σ κ) (s : Subject σ) :
    Except String (Status σ) × Pacer σ κ × Subject σ :=
  p.runFor ofSeconds (limit - p.ticks) s

/-- The length of a tick unless another one is asked for: sixty ticks are a second. -/
def defaultTick : Float := 1.0 / 60.0

end Pacer

end LoopScript
