import LoopScript.Program.Parser

/-!
The reader of an interactive session. It collects lines until they make up a program: a line that
is one by itself is run at once, and any other is held back, with the lines after it, up to the next
blank line.
-/

namespace LoopScript

namespace Repl

def file : String := "<repl>"

inductive Answer where
  | quit
  | builtins
  | run (source : String)
  | more
deriving DecidableEq, Repr

def isProgram (text : String) : Bool :=
  match Program.ofSource text file with
  | .ok _ => true
  | .error _ => false

/-- Takes a line while none is held back. Only then is a line a command, and a line that ends in a
colon is held back even if it is a program. -/
def start (line : String) : Answer × List String :=
  let bare := Text.trim line
  if bare = ":quit" ∨ bare = ":exit" then (.quit, [])
  else if bare = ":builtins" then (.builtins, [])
  else if bare.isEmpty then (.more, [])
  else if !bare.endsWith ":" && isProgram line then (.run line, [])
  else (.more, [line])

/-- Takes a line after those held back, and gives back those held back from now on. -/
def feed (held : List String) (line : String) : Answer × List String :=
  match held with
  | [] => start line
  | _ :: _ =>
    if (Text.trim line).isEmpty then (.run ("\n".intercalate held), [])
    else (.more, held ++ [line])

end Repl

end LoopScript
