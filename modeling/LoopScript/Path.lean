/-!
Paths as text, and their normal form. Nothing here looks at a file: `..` simply takes away the part
before it.
-/

namespace LoopScript

namespace Path

def isAbsolute (p : String) : Bool := p.startsWith "/"

/-- What a path leads to from a directory. -/
def join (directory p : String) : String :=
  if isAbsolute p then p
  else if directory.endsWith "/" then directory ++ p
  else directory ++ "/" ++ p

/-- The slashes at the head of a normal path: two are kept, but three or more are one. -/
def root (p : String) : String :=
  match (p.toList.takeWhile (· = '/')).length with
  | 0 => ""
  | 2 => "//"
  | _ => "/"

/-- Adds a part to a normal path, given by its parts from the last to the first. Above the root
there is only the root. -/
def push (rooted : Bool) (done : List String) (part : String) : List String :=
  if part = "" ∨ part = "." then done
  else if part = ".." then
    match done with
    | [] => if rooted then [] else [".."]
    | ".." :: _ => ".." :: done
    | _ :: rest => rest
  else part :: done

def normalize (p : String) : String :=
  let parts := (p.splitOn "/").foldl (push (isAbsolute p)) []
  let q := root p ++ "/".intercalate parts.reverse
  if q.isEmpty then "." else q

/-- The normal form of a path that starts in a directory. -/
def absolute (directory p : String) : String :=
  normalize (join directory p)

def baseName (p : String) : String :=
  (p.splitOn "/").getLastD ""

def parent (p : String) : String :=
  let slashed := p.toList.reverse.dropWhile (· ≠ '/')
  let bare := slashed.dropWhile (· = '/')
  String.ofList (if bare.isEmpty then slashed else bare).reverse

/-- A name without its last suffix. Dots at its head begin no suffix. -/
def stem (name : String) : String :=
  let dots := name.toList.takeWhile (· = '.')
  let rest := name.toList.dropWhile (· = '.')
  match rest.reverse.dropWhile (· ≠ '.') with
  | [] => name
  | _ :: kept => String.ofList (dots ++ kept.reverse)

end Path

end LoopScript
