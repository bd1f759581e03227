import LoopScript.Machine.State
import LoopScript.MergeSort
import LoopScript.Value.Access
import LoopScript.Value.Operators

/-!
The functions of the language itself.
-/

namespace LoopScript

namespace CoreFunction

def all : List CoreFunction :=
  [print, sleep, range, len, str, int, float, abs, min, max, sum, sorted]

def name : CoreFunction → String
  | print => "print" | sleep => "sleep" | range => "range" | len => "len" | str => "str"
  | int => "int" | float => "float" | abs => "abs" | min => "min" | max => "max" | sum => "sum"
  | sorted => "sorted"

def doc : CoreFunction → String
  | print => "Write the arguments, space separated, to the output sink."
  | sleep => "Suspend the program for a number of seconds."
  | _ => ""

def arity : CoreFunction → Nat × Option Nat
  | print => (0, none)
  | range => (1, some 3)
  | min | max => (1, none)
  | sorted => (1, some 3)
  | _ => (1, some 1)

def keywords : CoreFunction → List String
  | sorted => ["key", "reverse"]
  | _ => []

def builtin {σ : Type} (f : CoreFunction) : Builtin σ :=
  ⟨f.name, f.arity.1, f.arity.2, f == sleep, f.doc, f.keywords, .core f⟩

end CoreFunction

/-- The functions that are there without any extension. -/
def coreBuiltins {σ : Type} : Table String (Builtin σ) :=
  CoreFunction.all.map fun f => (f.name, f.builtin)

theorem action_of_coreBuiltins {σ : Type} {name : String} {b : Builtin σ}
    (h : coreBuiltins.get? name = some b) : ∃ f, b.action = .core f := by
  obtain ⟨k, hk⟩ := Table.exists_mem_of_get? h
  obtain ⟨f, -, hf⟩ := List.mem_map.mp hk
  exact ⟨f, by rw [← (Prod.mk.inj hf).2]; rfl⟩

/-- The numbers from `start` in steps of `step`, as long as they stay on this side of `stop`. -/
def rangeOf (start stop step : Int) : List Int :=
  let count :=
    if 0 < step then (stop - start + step - 1) / step else (start - stop - step - 1) / -step
  (List.range count.toNat).map fun (i : Nat) => start + i * step

namespace Store

def sortBy (s : Store) (reversed : Bool) (keys items : List Value) : Except Fault (List Value) := do
  let less (p q : Value × Value) : Except Fault Bool := return (← s.compare p.1 q.1) == .lt
  return (← stableSort less reversed (keys.zip items)).map (·.2)

def expectNumber (s : Store) (rule : String) (v : Value) : Except Fault Float :=
  match float? v with
  | some x => x
  | none => .error (.of (.notNumber (s.typeName v) rule))

/-- The first item that no other one beats. -/
def extreme (s : Store) (rule : String) (beats : Ordering) (args : List Value) :
    Except Fault Value := do
  let items ← match args with
    | [v] => s.items v
    | vs => .ok vs
  match items with
  | [] => .error (.of (.emptySequence rule))
  | x :: xs => xs.foldlM (fun best y => return if (← s.compare y best) == beats then y else best) x

def rangeItems (s : Store) (args : List Value) : Except Fault (List Value) := do
  let bounds ← args.mapM (s.toInt · "range")
  let (start, stop, step) := match bounds with
    | [stop] => (0, stop, 1)
    | [start, stop] => (start, stop, 1)
    | start :: stop :: step :: _ => (start, stop, step)
    | [] => (0, 0, 1)
  if step = 0 then .error (.of .zeroStep)
  else (rangeOf start stop step).mapM fun i => return .num (← floatOfInt i)

def lengthOf (s : Store) (v : Value) : Except Fault Float :=
  match v, s.object? v with
  | .str t, _ => floatOfInt t.length
  | _, some (.list xs) => floatOfInt xs.length
  | _, some (.dict es) => floatOfInt es.length
  | v, _ => .error (.of (.noLength (s.typeName v)))

def sumOf (s : Store) (v : Value) : Except Fault Float := do
  (← s.items v).foldlM (fun total x => return total + (← s.expectNumber "sum" x)) 0.0

def duration (s : Store) (v : Value) : Except Fault Float := do
  let x ← s.expectNumber "sleep" v
  if x < 0 ∨ Decimal.classOf x ≠ .finite then .error (.of .badDuration) else .ok x

end Store

namespace CoreFunction

open Act

def reply {σ : Type} (setup : Setup σ) (f : CoreFunction) (c : Call) : Act σ (Reply σ) := do
  let first := c.args.headD .none
  let read {α : Type} (g : Store → Except Fault α) : Act σ α := reading c.location g
  match f with
  | print =>
    let texts ← read fun s => c.args.mapM s.text
    onWorld fun ⟨store, host⟩ => ((), ⟨store, setup.print (" ".intercalate texts) host⟩)
    return .value .none
  | sleep => return .wait (.seconds (← read (·.duration first)))
  | range => return .value (← alloc (.list (← read (·.rangeItems c.args))))
  | len => return .value (.num (← read (·.lengthOf first)))
  | str => return .value (.str (← read (·.text first)))
  | int => return .value (.num (← read fun s => do floatOfInt (← s.toInt first "int")))
  | float => return .value (.num (← read (·.toNumber first "float")))
  | abs => return .value (.num (← read (·.expectNumber "abs" first)).abs)
  | min => return .value (← read (·.extreme "min" .lt c.args))
  | max => return .value (← read (·.extreme "max" .gt c.args))
  | sum => return .value (.num (← read (·.sumOf first)))
  | sorted => return .value .none

end CoreFunction

end LoopScript
