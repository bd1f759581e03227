/-!
Properties of characters that are given as ranges of code points.
-/

namespace LoopScript.Text

def inRanges (ranges : Array (Nat × Nat)) (n : Nat) : Bool :=
  ranges.any fun (lo, hi) => lo ≤ n && n ≤ hi

end LoopScript.Text
