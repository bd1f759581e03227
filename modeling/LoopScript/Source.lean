/-!
The normal form of source text: every line ends in a line feed, and tabs and invisible characters
are gone.
-/

namespace LoopScript.Source

def indentWidth : Nat := 4

/-- Vertical tab, form feed and the byte order mark. -/
def isInvisible (c : Char) : Bool :=
  c == '\x0b' || c == '\x0c' || c == '\ufeff'

def normalize : List Char → List Char
  | [] => []
  | '\r' :: '\n' :: cs => '\n' :: normalize cs
  | '\r' :: cs => '\n' :: normalize cs
  | '\t' :: cs => List.replicate indentWidth ' ' ++ normalize cs
  | c :: cs => if isInvisible c then normalize cs else c :: normalize cs

/-- Adds the line feed that the last line lacks. -/
def closeLine (cs : List Char) : List Char :=
  if cs.getLast? = some '\n' then cs else cs ++ ['\n']

def cleanList (cs : List Char) : List Char :=
  closeLine (normalize cs)

def clean (text : String) : String :=
  String.ofList (cleanList text.toList)

end LoopScript.Source
