import LoopScript.Fault
import LoopScript.Value
import LoopScript.Value.Number

/-!
The text of a value, as it is printed and as messages show it.
-/

namespace LoopScript

def Atom.text : Atom → String
  | .none => "None"
  | .bool b => if b then "True" else "False"
  | .str s => s
  | a => a.numeral

namespace Store

/-- The text of a value of which at most `n` containers lie inside one another. -/
def textWithin (s : Store) : Nat → Value → Except Fault String
  | _, .atom a => .ok a.text
  | n, .ref a =>
    match s.read a, n with
    | .list _, 0 | .dict _, 0 => .error .endless
    | .list items, n + 1 => do
      let texts ← items.mapM (s.textWithin n)
      .ok ("[" ++ String.intercalate ", " texts ++ "]")
    | .dict entries, n + 1 => do
      let texts ← entries.mapM fun (k, v) => do
        .ok ((← s.textWithin n k) ++ ": " ++ (← s.textWithin n v))
      .ok ("\x7b" ++ String.intercalate ", " texts ++ "\x7d")
    | .builtin name, _ => .ok ("<built-in function " ++ name ++ ">")
    | .function f, _ => .ok ("<function " ++ f.name ++ ">")
    | .lambda .., _ => .ok "<lambda>"
    | .cls name _, _ => .ok ("<class " ++ name ++ ">")
    | .instance_ c _, _ => .ok ("<" ++ s.className c ++ " object>")
    | .method receiver f, _ =>
      .ok ("<bound method " ++ s.typeName (.ref receiver) ++ "." ++ s.functionName f ++ ">")

def text (s : Store) (v : Value) : Except Fault String :=
  s.textWithin (s.objects.size + 1) v

end Store

end LoopScript
