import LoopScript.Value.Convert
import LoopScript.Value.Equality

/-!
Parts of values: items, slices, members.
-/

namespace LoopScript

/-- Every item whose distance from the first is a multiple of `step + 1`. -/
def strided {α : Type} (step : Nat) : List α → List α
  | [] => []
  | x :: xs => x :: strided step (xs.drop step)
termination_by xs => xs.length
decreasing_by simp only [List.length_drop, List.length_cons]; omega

/-- A bound of a slice: a negative one counts from the end, and none lies outside. -/
def clampBound (bound : Int) (length : Nat) : Nat :=
  min (if bound < 0 then bound + length else bound).toNat length

/-- The items from `start` up to, but not including, `stop`. Without a positive step there are
none. -/
def sliceOf {α : Type} (xs : List α) (start stop step : Option Int) : List α :=
  let step := step.getD 1
  if step ≤ 0 then []
  else
    let first := clampBound (start.getD 0) xs.length
    let last := clampBound (stop.getD xs.length) xs.length
    strided (step.toNat - 1) ((xs.take last).drop first)

/-- The place in a sequence of the given length that an index means. -/
def place? (length : Nat) (index : Int) : Option Nat :=
  let i := if index < 0 then index + length else index
  if 0 ≤ i ∧ i < length then some i.toNat else none

namespace Store

/-- The items that a loop over a value takes: those of a list, the characters of a string, the keys
of a dictionary. -/
def items (s : Store) (v : Value) : Except Fault (List Value) :=
  match v, s.object? v with
  | .str t, _ => .ok (t.toList.map fun c => .str c.toString)
  | _, some (.list xs) => .ok xs
  | _, some (.dict es) => .ok es.keys
  | v, _ => .error (.of (.notIterable (s.typeName v)))

def getIndex (s : Store) (base index : Value) : Except Fault Value :=
  match base, s.object? base with
  | .str t, _ => do
    match (place? t.length (← s.toIndex index)).bind (t.toList[·]?) with
    | some c => .ok (.str c.toString)
    | none => .error (.of .stringIndex)
  | _, some (.list xs) => do
    match (place? xs.length (← s.toIndex index)).bind (xs[·]?) with
    | some x => .ok x
    | none => .error (.of .listIndex)
  | _, some (.dict es) => do
    s.requireKey index
    match es.get? index with
    | some x => .ok x
    | none => .error (.of (.keyNotFound (← s.text index)))
  | base, _ => .error (.of (.notSubscriptable (s.typeName base)))

/-- The object whose item is to be set, and what becomes of it. -/
def setIndex (s : Store) (base index value : Value) : Except Fault (Addr × Obj) :=
  let refuse := .error (.of (.notItemAssignable (s.typeName base)))
  match base with
  | .atom _ => refuse
  | .ref a =>
    match s.read a with
    | .list xs => do
      match place? xs.length (← s.toIndex index) with
      | some i => .ok (a, .list (xs.set i value))
      | none => .error (.of .listAssignmentIndex)
    | .dict es => do
      s.requireKey index
      .ok (a, .dict (es.put index value))
    | _ => refuse

def sliceable (s : Store) (base : Value) : Except Fault Unit :=
  match base, s.object? base with
  | .str _, _ => .ok ()
  | _, some (.list _) => .ok ()
  | base, _ => .error (.of (.notSliceable (s.typeName base)))

def slice (s : Store) (base : Value) (start stop step : Option Int) : Made :=
  match base, s.object? base with
  | .str t, _ => .value (.str (String.ofList (sliceOf t.toList start stop step)))
  | _, some (.list xs) => .object (.list (sliceOf xs start stop step))
  | base, _ => .value base

/-- A member of a namespace, an object or a class. A method of an object comes bound to it, anew
each time. -/
def getMember (s : Store) (base : Value) (name : String) : Except Fault Made :=
  match base with
  | .atom _ => .error (.of (.noMembers (s.typeName base)))
  | .ref a =>
    match s.read a with
    | .dict es =>
      match es.get? (.str name) with
      | some v => .ok (.value v)
      | none => .error (.of (.noNamespaceMember name))
    | .instance_ c fields =>
      match fields.get? name with
      | some v => .ok (.value v)
      | none =>
        match s.read c with
        | .cls clsName methods =>
          match methods.get? name with
          | some f => .ok (.object (.method a f))
          | none => .error (.of (.noAttribute clsName name))
        | _ => .error (.of (.noMembers (s.typeName base)))
    | .cls clsName methods =>
      match methods.get? name with
      | some f => .ok (.value (.ref f))
      | none => .error (.of (.noMethod clsName name))
    | _ => .error (.of (.noMembers (s.typeName base)))

def settable (s : Store) (base : Value) : Except Fault Addr :=
  match base, s.object? base with
  | .ref a, some (.instance_ _ _) => .ok a
  | base, _ => .error (.of (.memberNotSettable (s.typeName base)))

def setField (s : Store) (a : Addr) (name : String) (v : Value) : Store :=
  match s.read a with
  | .instance_ c fields => s.write a (.instance_ c (fields.put name v))
  | _ => s

end Store

end LoopScript
