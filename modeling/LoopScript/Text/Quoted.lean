import LoopScript.Text.Printable

/-!
Quoted text, in which every character can be seen.
-/

namespace LoopScript.Text

/-- The last `width` hexadecimal digits of a number, in lower case. -/
def hex (width n : Nat) : List Char :=
  match width with
  | 0 => []
  | w + 1 => hex w (n / 16) ++ [Nat.digitChar (n % 16)]

/-- A character that cannot be printed is told by its code point, in two, four or eight digits. -/
def codePoint (c : Char) : List Char :=
  let n := c.toNat
  if n < 0x100 then '\\' :: 'x' :: hex 2 n
  else if n < 0x10000 then '\\' :: 'u' :: hex 4 n
  else '\\' :: 'U' :: hex 8 n

def quoteChar (quote c : Char) : List Char :=
  if c = quote ∨ c = '\\' then ['\\', c]
  else match c with
    | '\t' => ['\\', 't']
    | '\n' => ['\\', 'n']
    | '\r' => ['\\', 'r']
    | c => if isPrintable c then [c] else codePoint c

/-- The quote is single unless that would need an escape which the double quote does not. -/
def chooseQuote (cs : List Char) : Char :=
  if '\'' ∈ cs ∧ '"' ∉ cs then '"' else '\''

def quoted (s : String) : String :=
  let q := chooseQuote s.toList
  String.ofList (q :: s.toList.flatMap (quoteChar q) ++ [q])

end LoopScript.Text
