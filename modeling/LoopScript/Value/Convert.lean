import LoopScript.Decimal.Reader
import LoopScript.Value.Text

/-!
Conversions of values to numbers.
-/

namespace LoopScript

/-- The float nearest to a whole number. -/
def floatOfInt (i : Int) : Except Fault Float :=
  match Decimal.ofInt? i with
  | some x => .ok x
  | none => .error (.foreign "int too large to convert to float")

/-- The float that a number stands for, if the atom is a number. -/
def Atom.float? : Atom → Option (Except Fault Float)
  | .bool b => some (.ok (if b then 1.0 else 0.0))
  | .int i => some (floatOfInt i)
  | .num x => some (.ok x)
  | _ => Option.none

namespace Store

def float? (v : Value) : Option (Except Fault Float) :=
  match v with
  | .atom a => a.float?
  | .ref _ => none

def isNumber (v : Value) : Bool :=
  match v with
  | .atom a => a.isNumber
  | .ref _ => false

/-- The number that a value stands for: a string counts if it spells one. -/
def toNumber (s : Store) (v : Value) (rule : String) : Except Fault Float :=
  match v with
  | .str t =>
    match Decimal.read? (Text.trim t) with
    | some x => .ok x
    | none => .error (.of (.notNumeral t rule))
  | v =>
    match float? v with
    | some x => x
    | none => .error (.of (.notConvertible (s.typeName v) rule))

/-- The whole part of the number that a value stands for. -/
def toInt (s : Store) (v : Value) (rule : String) : Except Fault Int := do
  let x ← s.toNumber v rule
  if Decimal.classOf x = .finite then .ok (Decimal.truncate (Decimal.exact x))
  else .error (.of (.notFinite (Decimal.display x) rule))

/-- Lists and dictionaries can be no keys. -/
def requireKey (s : Store) (v : Value) : Except Fault Unit :=
  match s.object? v with
  | some (.list _) | some (.dict _) => .error (.of (.unhashable (s.typeName v)))
  | _ => .ok ()

def toIndex (s : Store) (v : Value) : Except Fault Int :=
  match float? v with
  | none => .error (.of (.indexNotNumber (s.typeName v)))
  | some x => do
    let x ← x
    if Decimal.classOf x = .finite ∧ Decimal.isWhole (Decimal.exact x) then
      .ok (Decimal.exact x).num
    else .error (.of (.indexNotWhole (Decimal.display x)))

end Store

end LoopScript
