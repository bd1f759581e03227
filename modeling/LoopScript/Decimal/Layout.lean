import LoopScript.Decimal.Shortest

/-!
How numbers are written.
-/

namespace LoopScript.Decimal

/-- The decisions of a format: the exponents of the leading digit from `plainFrom` up to, but not
including, `plainBelow` are written without an exponent. -/
structure Layout where
  plainFrom : Int
  plainBelow : Int
  exponentWidth : Nat

/-- The digits without the zeros at their end, and the place before the first of them: the value is
`0.ddd * 10 ^ place`. -/
def significant (d : Numeral) : List Char × Int :=
  let ds := Nat.toDigits 10 d.digits
  ((ds.reverse.dropWhile (· == '0')).reverse, d.exponent + ds.length)

def zeroes (n : Nat) : List Char :=
  List.replicate n '0'

/-- Digits with the point at the given place, and at least one digit on either side of it. -/
def plain (ds : List Char) (place : Int) : List Char :=
  if place ≤ 0 then '0' :: '.' :: zeroes (-place).toNat ++ ds
  else if ds.length ≤ place.toNat then ds ++ zeroes (place.toNat - ds.length) ++ ['.', '0']
  else ds.take place.toNat ++ '.' :: ds.drop place.toNat

def scientific (width : Nat) (ds : List Char) (e : Int) : List Char :=
  let exponent := Nat.toDigits 10 e.natAbs
  let point := if ds.length ≤ 1 then [] else ['.']
  ds.take 1 ++ point ++ ds.drop 1 ++ 'e' :: (if e < 0 then '-' else '+') ::
    zeroes (width - exponent.length) ++ exponent

namespace Layout

def write (layout : Layout) (b : Binary) : List Char :=
  if b.m = 0 then "0.0".toList
  else
    let (ds, place) := significant b.shortest
    if layout.plainFrom ≤ place - 1 ∧ place - 1 < layout.plainBelow then plain ds place
    else scientific layout.exponentWidth ds (place - 1)

end Layout

/-- Numbers are written with the fewest digits that identify them: with a point from a ten
thousandth up to ten quadrillions, otherwise with an exponent of at least two digits. -/
def standard : Layout := ⟨-4, 16, 2⟩

/-- The text of a number that tells it from every other one. -/
def text (x : Float) : String :=
  let sign := if isNegative x then ['-'] else []
  match classOf x with
  | .nan => "nan"
  | .infinite => String.ofList (sign ++ "inf".toList)
  | .finite => String.ofList (sign ++ standard.write (magnitude x))

/-- The text of a number in which a whole one has no point. -/
def display (x : Float) : String :=
  if classOf x = .finite ∧ isWhole (exact x) then toString (exact x).num else text x

end LoopScript.Decimal
