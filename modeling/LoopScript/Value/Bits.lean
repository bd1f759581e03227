/-!
Bitwise operations on whole numbers of any size. A negative number has infinitely many leading
ones.
-/

namespace LoopScript.Bits

def without (m n : Nat) : Nat := m ^^^ (m &&& n)

def and : Int → Int → Int
  | .ofNat m, .ofNat n => .ofNat (m &&& n)
  | .ofNat m, .negSucc n => .ofNat (without m n)
  | .negSucc m, .ofNat n => .ofNat (without n m)
  | .negSucc m, .negSucc n => .negSucc (m ||| n)

def or : Int → Int → Int
  | .ofNat m, .ofNat n => .ofNat (m ||| n)
  | .ofNat m, .negSucc n => .negSucc (without n m)
  | .negSucc m, .ofNat n => .negSucc (without m n)
  | .negSucc m, .negSucc n => .negSucc (m &&& n)

def xor : Int → Int → Int
  | .ofNat m, .ofNat n => .ofNat (m ^^^ n)
  | .ofNat m, .negSucc n => .negSucc (m ^^^ n)
  | .negSucc m, .ofNat n => .negSucc (m ^^^ n)
  | .negSucc m, .negSucc n => .ofNat (m ^^^ n)

/-- Shifts beyond this many places leave no bit of a floating-point number in sight. -/
def shiftLimit : Nat := 2100

def shiftRight (a : Int) (n : Nat) : Int :=
  a >>> min n shiftLimit

/-- The shifted number, unless it is too large to be a floating-point number in any case. -/
def shiftLeft? (a : Int) (n : Nat) : Option Int :=
  if a = 0 then some 0
  else if n ≤ shiftLimit then some (a * (1 <<< n : Nat))
  else none

end LoopScript.Bits
