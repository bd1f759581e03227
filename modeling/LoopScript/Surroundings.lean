import LoopScript.Path
import LoopScript.Services.Registration
import LoopScript.Text.Blank
import LoopScript.Text.Lines

/-!
What a command finds around it: a directory to start from, files, and extensions. Files that list
extensions are resolved here, and extensions are loaded.
-/

namespace LoopScript

/-- Why a file cannot be read, with the number that the system has for it. -/
structure ReadError where
  code : Nat
  reason : String
deriving DecidableEq, Repr

namespace ReadError

def notFound : ReadError := ⟨2, "No such file or directory"⟩

def notDirectory : ReadError := ⟨20, "Not a directory"⟩

def isDirectory : ReadError := ⟨21, "Is a directory"⟩

def nameTooLong : ReadError := ⟨36, "File name too long"⟩

def message (e : ReadError) (path : String) : String :=
  "[Errno " ++ toString e.code ++ "] " ++ e.reason ++ ": " ++ Text.quoted path

end ReadError

/-- The surroundings of a command, which are looked at by actions of `m`. -/
structure Surroundings (m : Type → Type) (σ : Type) where
  directory : String
  isThere : String → m Bool
  read : String → m (Except ReadError String)
  /-- The extension that a file with the suffix of an extension holds. -/
  extension : String → Extension σ

namespace Surroundings

variable {m : Type → Type} {σ : Type} [Monad m] (s : Surroundings m σ)

def absolute (p : String) : String := Path.absolute s.directory p

/-- The files that a list names, one a line. A list may hold comments and blank lines, and names
files as they are found from its own directory. -/
def listed (directory text : String) : List String :=
  let names := (Text.lines text).map fun l => Text.trimList (l.toList.takeWhile (· ≠ '#'))
  (names.filter (!·.isEmpty)).map fun cs =>
    let p := String.ofList cs
    if Path.isAbsolute p then p else Path.absolute directory p

def readList (path : String) : m (Except ExtensionError (List String)) := do
  if ← s.isThere path then
    match ← s.read path with
    | .ok text => return .ok (listed (Path.parent (s.absolute path)) text)
    | .error _ => return .error (.listNotFound path)
  else return .error (.listNotFound path)

def isList (path : String) : Bool := path.toLower.endsWith ".loopx"

def isExtension (path : String) : Bool := path.endsWith ".py"

def expand (path : String) : m (Except ExtensionError (List String)) :=
  if isList path then s.readList path else pure (.ok [path])

def gather : List String → m (Except ExtensionError (List String))
  | [] => return .ok []
  | p :: ps => do
    match ← s.expand p with
    | .error e => return .error e
    | .ok here =>
      match ← gather ps with
      | .error e => return .error e
      | .ok rest => return .ok (here.map s.absolute ++ rest)

def loadFile (path : String) (services : Services σ) : m (Except ExtensionError (Services σ)) := do
  if !(← s.isThere path) then return .error (.notFound path)
  else if !isExtension path then return .error (.notLoadable path)
  else
    match ((s.extension path).load (Path.stem (Path.baseName path))).run services with
    | .ok _ services => return .ok services
    | .error e _ => return .error e

def loadFiles : List String → Services σ → m (Except ExtensionError (Services σ))
  | [], services => return .ok services
  | p :: ps, services => do
    match ← s.loadFile p services with
    | .error e => return .error e
    | .ok services => loadFiles ps services

def load (paths : List String) : m (Except ExtensionError (Services σ)) := do
  match ← s.gather paths with
  | .error e => return .error e
  | .ok files => s.loadFiles files .empty

end Surroundings

end LoopScript
