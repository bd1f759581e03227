import LoopScript.Shell

/-!
The command itself: it runs programs and sessions with the files and the terminal of the system.
-/

namespace LoopScript

namespace Command

def readError : IO.Error → ReadError
  | .noFileOrDirectory _ code reason => ⟨code.toNat, reason⟩
  | .inappropriateType _ code reason => ⟨code.toNat, reason⟩
  | .permissionDenied _ code reason => ⟨code.toNat, reason⟩
  | .invalidArgument _ code reason => ⟨code.toNat, reason⟩
  | e => ⟨5, toString e⟩

def isThere (path : String) : IO Bool := do
  try
    discard (IO.FS.Handle.mk path .read)
    return true
  catch _ => return false

def readFile (path : String) : IO (Except ReadError String) := do
  try return .ok (← IO.FS.readFile path)
  catch e => return .error (readError e)

/-- The extension in a file: the farm, or one that registers nothing. -/
def extension (path : String) : Extension Console :=
  if Path.baseName path = "farm.py" then Farm.extension Console.farmAccess
  else ⟨Services.apiVersion, none, none⟩

def surroundings : IO (Surroundings IO Console) := do
  return ⟨(← IO.currentDir).toString, isThere, readFile, extension⟩

def carryOut : Effect → IO Unit
  | .out text => do
    (← IO.getStdout).putStr text
    (← IO.getStdout).flush
  | .err text => do (← IO.getStderr).putStr text
  | .nap seconds => IO.sleep (seconds * 1000).toUInt32

def readLine : IO (Option String) := do
  let line ← (← IO.getStdin).getLine
  if line.isEmpty then return none
  else return some (if line.endsWith "\n" then (line.dropEnd 1).toString else line)

partial def drive (s : Shell) : IO UInt32 := do
  s.effects.forM carryOut
  match s.phase with
  | .exited code => return code.toUInt32
  | .reading .. => drive (s.feed (← readLine))
  | .running .. => drive s.tick

end Command

end LoopScript

def main (args : List String) : IO UInt32 := do
  LoopScript.Command.drive (← LoopScript.Shell.start (← LoopScript.Command.surroundings) args)
