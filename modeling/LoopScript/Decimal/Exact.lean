/-!
Exact values of floating-point numbers: significands, exponents, rationals.
-/

namespace LoopScript.Decimal

/-- The magnitude `m * 2 ^ q` of a finite number. -/
structure Binary where
  m : Nat
  q : Int
  /-- The gap to the magnitude below is half the gap to the one above. -/
  narrowBelow : Bool
deriving DecidableEq, Repr

def isNegative (x : Float) : Bool :=
  x.toBits >>> 63 == 1

def biasedExponent (x : Float) : Nat :=
  ((x.toBits >>> 52) &&& 0x7FF).toNat

def fraction (x : Float) : Nat :=
  (x.toBits &&& 0xFFFFFFFFFFFFF).toNat

inductive Class where
  | nan
  | infinite
  | finite
deriving DecidableEq, Repr

def classOf (x : Float) : Class :=
  if biasedExponent x ≠ 0x7FF then .finite
  else if fraction x = 0 then .infinite
  else .nan

/-- The leading bit of a significand, which is not written. -/
@[noinline] def leadingBit : Nat := 1 <<< 52

def magnitude (x : Float) : Binary :=
  if biasedExponent x = 0 then ⟨fraction x, -1074, false⟩
  else ⟨leadingBit + fraction x, (biasedExponent x : Int) - 1075,
    fraction x == 0 && 1 < biasedExponent x⟩

/-- The number `m * 2 ^ q`, or its negative. A number has many such forms. -/
structure Scaled where
  negative : Bool
  m : Nat
  q : Int
deriving DecidableEq, Repr

namespace Scaled

def ofInt (i : Int) : Scaled := ⟨decide (i < 0), i.natAbs, 0⟩

def ofFloat (x : Float) : Scaled :=
  let b := magnitude x
  ⟨isNegative x, b.m, b.q⟩

def significand (s : Scaled) : Int :=
  if s.negative then -s.m else s.m

def toRat (s : Scaled) : Rat :=
  if 0 ≤ s.q then ((s.significand * (1 <<< s.q.toNat : Nat) : Int) : Rat)
  else mkRat s.significand (1 <<< (-s.q).toNat)

/-- The significands of two magnitudes, brought to the lesser of their exponents. -/
def aligned (a b : Scaled) : Nat × Nat :=
  if a.q = b.q then (a.m, b.m)
  else if a.q < b.q then (a.m, b.m <<< (b.q - a.q).toNat)
  else (a.m <<< (a.q - b.q).toNat, b.m)

def same (a b : Scaled) : Bool :=
  let (m, n) := aligned a b
  m == n && (a.negative == b.negative || m == 0)

def lt (a b : Scaled) : Bool :=
  let (m, n) := aligned a b
  match a.negative, b.negative with
  | false, false => decide (m < n)
  | true, true => decide (n < m)
  | true, false => m != 0 || n != 0
  | false, true => false

end Scaled

def exact (x : Float) : Rat :=
  (Scaled.ofFloat x).toRat

def truncate (r : Rat) : Int :=
  r.num.tdiv r.den

def isWhole (r : Rat) : Bool :=
  r.den == 1

/-- The nearest number, ties to even, unless it lies beyond the finite ones. -/
def ofInt? (i : Int) : Option Float :=
  let x := Float.ofInt i
  if classOf x = .finite then some x else none

end LoopScript.Decimal
