import LoopScript.Proofs.Execution.Slices
import LoopScript.Proofs.Table

/-!
Watched hosts. A journal beside a host notes every event that is told to its handlers, whether there
are any or not, and every fault that code of the host raises; the host itself sees nothing of it.
-/

namespace LoopScript

variable {σ : Type}

inductive HostCode where
  | handler (kind : EventKind)
  | rule
  | function

inductive Note (σ : Type) where
  | told (e : Event σ)
  | raised (code : HostCode) (f : Fault)

namespace Note

def reports (notes : List (Note σ)) : List RuntimeError :=
  notes.filterMap fun
    | told (.onError e) => some e
    | _ => none

def endings (notes : List (Note σ)) : Nat :=
  notes.countP fun
    | told .programEnd => true
    | _ => false

def raises (notes : List (Note σ)) : List (HostCode × Fault) :=
  notes.filterMap fun
    | raised code f => some (code, f)
    | _ => none

end Note

/-- A host and its journal, the oldest note first. -/
structure Watched (σ : Type) where
  host : σ
  journal : List (Note σ)

namespace World

def watched (w : World σ) (journal : List (Note σ)) : World (Watched σ) :=
  ⟨w.store, w.host, journal⟩

def unwatched (w : World (Watched σ)) : World σ := ⟨w.store, w.host.host⟩

end World

namespace Wait

def watched : Wait σ → Wait (Watched σ)
  | seconds s => seconds s
  | condition holds => condition fun w =>
    let (answer, u) := holds w.unwatched
    (answer, u.watched w.host.journal)

def unwatched : Wait (Watched σ) → Wait σ
  | seconds s => seconds s
  | condition holds => condition fun w =>
    let (answer, u) := holds (w.watched [])
    (answer, u.unwatched)

theorem unwatched_watched (w : Wait σ) : w.watched.unwatched = w := by
  cases w <;> rfl

end Wait

def Event.unwatched : Event (Watched σ) → Event σ
  | programStart p globals => programStart p globals
  | beforeStatement s scope => beforeStatement s scope
  | beforeCall name args loc => beforeCall name args loc
  | afterCall name result loc => afterCall name result loc
  | onPause w => onPause w.unwatched
  | onError e => onError e
  | programEnd => programEnd

namespace Reply

def watched : Reply σ → Reply (Watched σ)
  | value v => value v
  | wait w => wait w.watched
  | fault f => fault f

def unwatched : Reply (Watched σ) → Reply σ
  | value v => value v
  | wait w => wait w.unwatched
  | fault f => fault f

def notes : Reply σ → List (Note σ)
  | fault f => [.raised .function f]
  | _ => []

theorem unwatched_watched (r : Reply σ) : r.watched.unwatched = r := by
  cases r with
  | wait w => exact congrArg wait w.unwatched_watched
  | value | fault => rfl

end Reply

def watchedReply (f : World σ → Reply σ × World σ) (w : World (Watched σ)) :
    Reply (Watched σ) × World (Watched σ) :=
  let (r, u) := f w.unwatched
  (r.watched, u.watched (w.host.journal ++ r.notes))

def watchedAnswer (code : HostCode) (f : World σ → Option Fault × World σ)
    (w : World (Watched σ)) : Option Fault × World (Watched σ) :=
  let (answer, u) := f w.unwatched
  (answer, u.watched (w.host.journal ++ answer.toList.map (.raised code)))

namespace Hook

def watched (h : Hook σ) : Hook (Watched σ) :=
  ⟨h.kind, h.priority, fun e => watchedAnswer (.handler h.kind) (h.handle e.unwatched)⟩

def recorder (kind : EventKind) : Hook (Watched σ) :=
  ⟨kind, 0, fun e w => (none, w.unwatched.watched (w.host.journal ++ [.told e.unwatched]))⟩

end Hook

def StepRule.watched (r : StepRule σ) : StepRule (Watched σ) :=
  ⟨r.every, fun c => watchedAnswer .rule (r.handle c)⟩

def Action.watched : Action σ → Action (Watched σ)
  | core f => core f
  | host reply => host fun c => watchedReply (reply c)
  | forward finish => forward fun v loc => watchedReply (finish v loc)
  | each => each

def Builtin.watched (b : Builtin σ) : Builtin (Watched σ) :=
  ⟨b.name, b.least, b.most, b.suspends, b.doc, b.keywords, b.action.watched⟩

/-- The services of a watched host: each event is noted before its handlers are called. -/
def Services.watched (s : Services σ) : Services (Watched σ) where
  metadata := s.metadata
  builtins := s.builtins.map fun (name, b) => (name, b.watched)
  enums := s.enums
  constants := s.constants
  hooks := EventKind.all.map Hook.recorder ++ s.hooks.map Hook.watched
  rules := s.rules.map StepRule.watched

def Setup.watched (setup : Setup σ) : Setup (Watched σ) where
  services := setup.services.watched
  print line h := { h with host := setup.print line h.host }
  budget := setup.budget
  verbose := setup.verbose

namespace Machine

def watched (m : Machine σ) : Machine (Watched σ) :=
  ⟨m.world.watched [], m.globals, m.forced, m.current, m.log, m.calls, m.issued⟩

def unwatched (m : Machine (Watched σ)) : Machine σ :=
  ⟨m.world.unwatched, m.globals, m.forced, m.current, m.log, m.calls, m.issued⟩

def journal (m : Machine (Watched σ)) : List (Note σ) := m.world.host.journal

end Machine

def Reaction.unwatched {b : Awaits} : Reaction (Watched σ) b → Reaction σ b
  | give x => give x
  | start t => start t
  | pause w r => pause w.unwatched r

def Invocation.unwatched : Invocation (Watched σ) → Invocation σ
  | react r => react r.unwatched
  | again callee c k => again callee c k

def Next.unwatched : Next (Watched σ) → Next σ
  | go c => go c
  | pause w r => pause w.unwatched r
  | finished f => finished f

def Status.unwatched : Status (Watched σ) → Status σ
  | running => running
  | paused w => paused w.unwatched
  | completed => completed
  | failed e => failed e
  | cancelled => cancelled

def Execution.unwatched : Execution (Watched σ) → Execution σ
  | fresh p => fresh p
  | suspended r => suspended r
  | drained => drained
  | ended s => ended s.unwatched

def Moment.unwatched (x : Moment (Watched σ)) : Moment σ :=
  ⟨x.answer.map (·.map Status.unwatched), x.execution.unwatched, x.machine.unwatched⟩

/-- What the host does while a program waits, seen from its journal: nothing. -/
def watchedWait (host : Wait σ → World σ → World σ) (w : Wait (Watched σ))
    (u : World (Watched σ)) : World (Watched σ) :=
  (host w.unwatched u.unwatched).watched u.host.journal

namespace Interpreter

def watched (i : Interpreter σ) : Interpreter (Watched σ) :=
  ⟨i.setup.watched, i.machine.watched, i.count⟩

def journal (i : Interpreter σ) (host : Wait σ → World σ → World σ) (p : Program) (n : Nat) :
    List (Note σ) :=
  (i.watched.run (watchedWait host) p n).machine.journal

end Interpreter

section Services

variable (s : Services σ)

theorem handlers_watched (kind : EventKind) :
    s.watched.handlers kind = Hook.recorder kind :: (s.handlers kind).map Hook.watched := by
  have recorders : (EventKind.all.map (Hook.recorder (σ := σ))).filter (·.kind = kind) =
      [Hook.recorder kind] := by
    cases kind <;> rfl
  have others : (s.hooks.map Hook.watched).filter (·.kind = kind) =
      (s.handlers kind).map Hook.watched :=
    List.filter_map
  simp only [Services.handlers, Services.watched, List.filter_append] at others ⊢
  rw [recorders, others]
  rfl

theorem builtin?_watched (setup : Setup σ) (name : String) :
    setup.watched.builtin? name = (setup.builtin? name).map Builtin.watched := by
  have core : coreBuiltins (σ := Watched σ) = coreBuiltins.map (Prod.map id Builtin.watched) := rfl
  have host : setup.watched.services.builtins.get? name =
      (setup.services.builtins.get? name).map Builtin.watched :=
    Table.get?_values setup.services.builtins name
  rw [Setup.builtin?, Setup.builtin?, host, core, Table.get?_values, Option.map_or]

end Services

end LoopScript
