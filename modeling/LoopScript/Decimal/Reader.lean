import LoopScript.Text.Blank
import LoopScript.Text.DecimalDigit

/-!
Numbers read from text: an optional sign, then digits with or without a point and an exponent, or
the name of an infinity or of the undefined number. Blanks may stand around it, a single underscore
between two digits, and the digits may come from any script.
-/

namespace LoopScript.Decimal

/-- The blanks that may stand around a numeral, all but the four information separators. -/
def isMargin (c : Char) : Bool :=
  Text.isBlank c && !('\x1c' ≤ c && c ≤ '\x1f')

/-- Digits of all scripts become those of ASCII. -/
def asciiDigit (c : Char) : Char :=
  match Text.digit? c with
  | some d => Nat.digitChar d
  | none => c

/-- Drops each underscore between two digits, and refuses any other one. -/
def joinDigits (afterDigit : Bool) : List Char → Option (List Char)
  | [] => some []
  | '_' :: c :: cs => if afterDigit && c.isDigit then (joinDigits true cs).map (c :: ·) else none
  | ['_'] => none
  | c :: cs => (joinDigits c.isDigit cs).map (c :: ·)

def plainNumeral (s : String) : Option (List Char) :=
  joinDigits false ((Text.trimBy isMargin s.toList).map asciiDigit)

def digitsValue (ds : List Char) : Nat :=
  ds.foldl (fun n c => 10 * n + (c.toNat - '0'.toNat)) 0

def takeSign : List Char → Bool × List Char
  | '-' :: cs => (true, cs)
  | '+' :: cs => (false, cs)
  | cs => (false, cs)

/-- The exponent at the end of a numeral, zero if there is none. -/
def exponent? : List Char → Option Int
  | [] => some 0
  | c :: cs =>
    let (negative, ds) := takeSign cs
    if (c == 'e' || c == 'E') && !ds.isEmpty && ds.all Char.isDigit then
      some (if negative then -digitsValue ds else digitsValue ds)
    else none

/-- The float nearest to `n * 10 ^ e`. Beyond the range of floats the power need not be computed. -/
def nearest (n : Nat) (e : Int) : Float :=
  if n = 0 then 0.0
  else
    let place := e + (Nat.toDigits 10 n).length
    if 310 < place then 1.0 / 0.0
    else if place < -330 then 0.0
    else Float.ofScientific n (e < 0) e.natAbs

def magnitude? (cs : List Char) : Option Float :=
  let whole := cs.takeWhile Char.isDigit
  let rest := cs.dropWhile Char.isDigit
  let (places, rest) := match rest with
    | '.' :: r => (r.takeWhile Char.isDigit, r.dropWhile Char.isDigit)
    | r => ([], r)
  if whole.isEmpty && places.isEmpty then none
  else (exponent? rest).map fun e => nearest (digitsValue (whole ++ places)) (e - places.length)

def named? (cs : List Char) : Option Float :=
  let word := String.ofList (cs.map Char.toLower)
  if word = "inf" ∨ word = "infinity" then some (1.0 / 0.0)
  else if word = "nan" then some (0.0 / 0.0)
  else none

def read? (s : String) : Option Float := do
  let (negative, cs) := takeSign (← plainNumeral s)
  let x ← (named? cs).or (magnitude? cs)
  some (if negative then -x else x)

/-- A whole number with more digits than this is not read. -/
def digitLimit : Nat := 4300

def readInt? (s : String) : Option Int := do
  let (negative, ds) := takeSign (← plainNumeral s)
  if ds.isEmpty || digitLimit < ds.length || !ds.all Char.isDigit then none
  else some (if negative then -digitsValue ds else digitsValue ds)

end LoopScript.Decimal
