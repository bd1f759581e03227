import LoopScript.Text.Quoted

/-!
JSON documents, written with an indent and in ASCII alone.
-/

namespace LoopScript.Text

inductive Json where
  | null
  | nat (n : Nat)
  | str (s : String)
  | list (items : List Json)
  | record (fields : List (String × Json))

namespace Json

/-- The two 16-bit units of a code point beyond the first 65536. -/
def surrogates (n : Nat) : List Char :=
  let m := n - 0x10000
  ['\\', 'u'] ++ hex 4 (0xD800 + m / 0x400) ++ ['\\', 'u'] ++ hex 4 (0xDC00 + m % 0x400)

def escapeChar (c : Char) : List Char :=
  match c with
  | '"' => ['\\', '"']
  | '\\' => ['\\', '\\']
  | '\n' => ['\\', 'n']
  | '\r' => ['\\', 'r']
  | '\t' => ['\\', 't']
  | '\x08' => ['\\', 'b']
  | '\x0c' => ['\\', 'f']
  | c =>
    let n := c.toNat
    if 0x20 ≤ n ∧ n < 0x7F then [c]
    else if n < 0x10000 then '\\' :: 'u' :: hex 4 n
    else surrogates n

def string (s : String) : String :=
  String.ofList ('"' :: s.toList.flatMap escapeChar ++ ['"'])

/-- The items between two brackets, one a line, two columns further in. -/
def block (opening closing : String) (depth : Nat) (items : List String) : String :=
  if items.isEmpty then opening ++ closing
  else
    let margin (d : Nat) := "\n" ++ String.ofList (List.replicate (2 * d) ' ')
    opening ++ margin (depth + 1) ++ String.intercalate ("," ++ margin (depth + 1)) items ++
      margin depth ++ closing

mutual

def render (depth : Nat) : Json → String
  | .null => "null"
  | .nat n => toString n
  | .str s => string s
  | .list items => block "[" "]" depth (renderItems (depth + 1) items)
  | .record fields => block "\x7b" "\x7d" depth (renderFields (depth + 1) fields)

def renderItems (depth : Nat) : List Json → List String
  | [] => []
  | item :: items => render depth item :: renderItems depth items

def renderFields (depth : Nat) : List (String × Json) → List String
  | [] => []
  | (name, value) :: fields =>
    (string name ++ ": " ++ render depth value) :: renderFields depth fields

end

def text (j : Json) : String := render 0 j

end Json

end LoopScript.Text
