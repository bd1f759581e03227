import LoopScript.Atom
import LoopScript.Decimal.Layout

/-!
Numbers: truth values, whole numbers and floating-point numbers on one line.
-/

namespace LoopScript

/-- The number line with its two ends; the result of an undefined operation lies nowhere on it. -/
inductive Extended where
  | below
  | finite (x : Decimal.Scaled)
  | above
  | nowhere

namespace Extended

def ofFloat (x : Float) : Extended :=
  match Decimal.classOf x with
  | .nan => nowhere
  | .infinite => if Decimal.isNegative x then below else above
  | .finite => finite (.ofFloat x)

def lt : Extended → Extended → Bool
  | below, finite _ => true
  | below, above => true
  | finite _, above => true
  | finite x, finite y => x.lt y
  | _, _ => false

def same : Extended → Extended → Bool
  | below, below => true
  | above, above => true
  | finite x, finite y => x.same y
  | _, _ => false

/-- Numbers of which neither is less are taken as equal. -/
def compare (a b : Extended) : Ordering :=
  if a.lt b then .lt else if b.lt a then .gt else .eq

end Extended

namespace Atom

/-- Where an atom lies on the number line, if it is a number. Truth and falsehood are one and
zero. -/
def extended? : Atom → Option Extended
  | bool b => some (.finite (.ofInt (if b then 1 else 0)))
  | int i => some (.finite (.ofInt i))
  | num x => some (.ofFloat x)
  | _ => Option.none

def isNumber (a : Atom) : Bool :=
  match a with
  | bool _ | int _ | num _ => true
  | _ => false

/-- Equality of atoms: numbers by value, all others by kind and content. -/
def same (a b : Atom) : Bool :=
  match a.extended?, b.extended? with
  | some x, some y => x.same y
  | Option.none, Option.none =>
    match a, b with
    | none, none => true
    | str s, str t => s == t
    | _, _ => false
  | _, _ => false

end Atom

def Atom.numeral : Atom → String
  | .int i => toString i
  | .num x => Decimal.display x
  | _ => ""

end LoopScript
