/-!
Atoms: the values that hold no other value.
-/

namespace LoopScript

/-- A number is a whole number of any size, which only a host can supply, or a floating-point
number. -/
inductive Atom where
  | none
  | bool (b : Bool)
  | int (i : Int)
  | num (x : Float)
  | str (s : String)
deriving Inhabited

end LoopScript
