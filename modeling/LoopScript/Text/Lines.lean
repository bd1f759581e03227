/-!
Lines of a text. A line ends at any of the boundaries of Unicode, or at one of the three
separators of files, groups and records.
-/

namespace LoopScript.Text

def isLineBoundary (c : Char) : Bool :=
  let n := c.toNat
  (0x0A ≤ n && n ≤ 0x0D) || (0x1C ≤ n && n ≤ 0x1E) || n == 0x85 || n == 0x2028 || n == 0x2029

/-- A carriage return and the line feed after it are one boundary, and a boundary at the end of the
text opens no further line. -/
def splitLines : List Char → List (List Char)
  | [] => []
  | '\r' :: '\n' :: cs => [] :: splitLines cs
  | c :: cs =>
    if isLineBoundary c then [] :: splitLines cs
    else match splitLines cs with
      | [] => [[c]]
      | line :: lines => (c :: line) :: lines

def lines (s : String) : List String :=
  (splitLines s.toList).map String.ofList

end LoopScript.Text
