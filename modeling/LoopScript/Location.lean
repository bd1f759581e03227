/-!
Places in a source text, and the one line in which an error is reported.
-/

namespace LoopScript

structure Location where
  file : String
  line : Nat
  column : Nat
  statement : String
deriving DecidableEq, Inhabited, Repr

/-- The report of an error of the given kind: its line, when it has one, and its message. -/
def headline (kind : String) (line : Option Nat) (message : String) : String :=
  match line with
  | none => kind ++ "Error: " ++ message
  | some n => kind ++ "Error (Line " ++ toString n ++ "): " ++ message

end LoopScript
