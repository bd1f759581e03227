/-!
White space: the characters that may be trimmed from the ends of a text.
-/

namespace LoopScript.Text

/-- The white space of Unicode, together with the four information separators. -/
def isBlank (c : Char) : Bool :=
  let n := c.toNat
  (0x09 ≤ n && n ≤ 0x0D) || (0x1C ≤ n && n ≤ 0x20) || n == 0x85 || n == 0xA0 || n == 0x1680 ||
    (0x2000 ≤ n && n ≤ 0x200A) || n == 0x2028 || n == 0x2029 || n == 0x202F || n == 0x205F ||
    n == 0x3000

/-- Drops the characters of a class from both ends. -/
def trimBy (drop : Char → Bool) (cs : List Char) : List Char :=
  ((cs.dropWhile drop).reverse.dropWhile drop).reverse

def trimList (cs : List Char) : List Char :=
  trimBy isBlank cs

def trim (s : String) : String :=
  String.ofList (trimList s.toList)

end LoopScript.Text
