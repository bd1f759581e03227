import LoopScript.Decimal.Exact

/-!
The shortest decimal that reads back to a given floating-point number.
-/

namespace LoopScript.Decimal

/-- `digits * 10 ^ exponent`. -/
structure Numeral where
  digits : Nat
  exponent : Int
deriving DecidableEq, Repr

/-- Compares `a * 10 ^ i` with `n * 2 ^ j`. -/
def compareScaled (a : Nat) (i : Int) (n : Nat) (j : Int) : Ordering :=
  compare ((a * Nat.pow 10 i.toNat) <<< (-j).toNat) ((n * Nat.pow 10 (-i).toNat) <<< j.toNat)

namespace Binary

/-- Whether a decimal lies among the reals whose nearest magnitude is `b`, where a tie goes to the
even significand. -/
def readsBack (b : Binary) (d : Numeral) : Bool :=
  let below := if b.narrowBelow then 4 * b.m - 1 else 4 * b.m - 2
  let above := 4 * b.m + 2
  let closed := b.m % 2 == 0
  let low := compareScaled d.digits d.exponent below (b.q - 2)
  let high := compareScaled d.digits d.exponent above (b.q - 2)
  (low == .gt || (closed && low == .eq)) && (high == .lt || (closed && high == .eq))

/-- The least `k` with `b < 10 ^ k`, for a magnitude other than zero. -/
def leadingPlace (b : Binary) : Int :=
  let guess := (((b.m.log2 : Int) + b.q) * 30103).fdiv 100000
  let fits (k : Int) := compareScaled 1 k b.m b.q == .gt
  if fits guess then guess else if fits (guess + 1) then guess + 1 else guess + 2

/-- The greatest multiple of `10 ^ e` that is not above `b`. -/
def floorAt (b : Binary) (e : Int) : Nat :=
  ((b.m * Nat.pow 10 (-e).toNat) <<< b.q.toNat) / (Nat.pow 10 e.toNat <<< (-b.q).toNat)

/-- Of the two multiples of `10 ^ e` next to `b`, the nearer one that reads back; a tie goes to the
even one. -/
def onGrid? (b : Binary) (e : Int) : Option Numeral :=
  let d := b.floorAt e
  let low : Numeral := ⟨d, e⟩
  let high : Numeral := ⟨d + 1, e⟩
  match b.readsBack low, b.readsBack high with
  | false, false => none
  | true, false => some low
  | false, true => some high
  | true, true =>
    match compareScaled (2 * d + 1) e b.m (b.q + 1) with
    | .gt => some low
    | .lt => some high
    | .eq => some (if d % 2 = 0 then low else high)

/-- The first of ever finer grids that holds a decimal which reads back; seventeen digits always
suffice. -/
def shortest (b : Binary) : Numeral :=
  let k := b.leadingPlace
  let grids := (List.range 17).map fun (n : Nat) => k - (n + 1)
  (grids.findSome? b.onGrid?).getD ⟨b.floorAt (k - 17), k - 17⟩

end Binary

end LoopScript.Decimal
