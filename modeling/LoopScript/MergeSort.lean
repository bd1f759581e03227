import LoopScript.MergeSort.Merge

/-!
Stable sorting by merging runs, with comparisons that may be refused. The list is cut into runs that
are sorted already, short ones are extended by insertion, and neighbours are merged so that the
merges make up a nearly balanced tree. Since the first comparison that is refused ends the sort, the
order of the comparisons is part of what this module promises.
-/

namespace LoopScript

namespace MergeSort

variable {ε α : Type}

/-- Puts an item behind all those of a sorted list that it is not less than. -/
def insert (less : α → α → Except ε Bool) (sorted : List α) (x : α) : Except ε (List α) := do
  let i ← boundary .front (fun y => return !(← less x y)) sorted 0 sorted.length
  return sorted.insertIdx i x

/-- How many items continue a run in which each item is less than the one before, or none is. -/
def runLength (less : α → α → Except ε Bool) (falling : Bool) (last : α) :
    List α → Except ε Nat
  | [] => .ok 0
  | x :: xs => do
    if (← less x last) = falling then return (← runLength less falling x xs) + 1
    else return 0

/-- Whether the run that begins with `x` is falling, and how many items continue it. -/
def runFrom (less : α → α → Except ε Bool) (x : α) : List α → Except ε (Bool × Nat)
  | [] => .ok (false, 0)
  | y :: ys => do
    let falling ← less y x
    return (falling, (← runLength less falling y ys) + 1)

/-- The least length of a run in a list of `n` items: all of them if they are fewer than 64, and
otherwise 32 to 64, so that the number of runs is a power of two or slightly less. -/
def leastRun (n : Nat) : Nat :=
  let unit := 1 <<< (n.log2 - 5)
  (n + unit - 1) / unit

/-- The depth in a balanced tree at which two neighbouring runs are to be merged: the first binary
place in which their middles differ, as fractions of the length of the list. -/
def depth (start left right total : Nat) : Nat :=
  let first := 2 * start + left
  let second := first + left + right
  ((List.range (total.log2 + 2)).find? fun k =>
    (first <<< k) / total ≠ (second <<< k) / total).getD 0

/-- Runs that wait to be merged, the last one first, each with the depth at which it is to be merged
with the run behind it. -/
abbrev Waiting (α : Type) := List (List α × Nat)

/-- Merges a run with those before it that are to be merged deeper in the tree. -/
def collapse (less : α → α → Except ε Bool) (limit patience : Nat) (run : List α) :
    Waiting α → Except ε (List α × Waiting α × Nat)
  | [] => .ok (run, [], patience)
  | (before, d) :: waiting =>
    if limit < d then do
      let (run, patience) ← mergeRuns less patience before run
      collapse less limit patience run waiting
    else .ok (run, (before, d) :: waiting, patience)

def push (less : α → α → Except ε Bool) (total patience : Nat) (run : List α) :
    Waiting α → Except ε (Waiting α × Nat)
  | [] => .ok ([(run, 0)], patience)
  | (last, _) :: waiting => do
    let start := waiting.foldl (fun n w => n + w.1.length) 0
    let d := depth start last.length run.length total
    let (last, waiting, patience) ← collapse less d patience last waiting
    return ((run, 0) :: (last, d) :: waiting, patience)

/-- Cuts a list into runs of at least the given length and adds them to those that wait. -/
def pushRuns (less : α → α → Except ε Bool) (total least patience : Nat) (waiting : Waiting α) :
    List α → Except ε (Waiting α × Nat)
  | [] => .ok (waiting, patience)
  | x :: xs => do
    let (falling, n) ← runFrom less x xs
    let natural := x :: xs.take n
    let more := max n (least - 1)
    let run ← ((xs.take more).drop n).foldlM (insert less)
      (if falling then natural.reverse else natural)
    let (waiting, patience) ← push less total patience run waiting
    pushRuns less total least patience waiting (xs.drop more)
termination_by xs => xs.length
decreasing_by
  simp only [List.length_cons, List.length_drop]
  omega

/-- Merges all runs that wait. A run that is shorter than the second one behind it is merged with
the one between them first. -/
def mergeAll (less : α → α → Except ε Bool) (patience : Nat) :
    List (List α) → Except ε (List α)
  | [] => .ok []
  | [run] => .ok run
  | [last, before] => return (← mergeRuns less patience before last).1
  | last :: before :: first :: waiting => do
    if first.length < last.length then
      let (run, patience) ← mergeRuns less patience first before
      mergeAll less patience (last :: run :: waiting)
    else
      let (run, patience) ← mergeRuns less patience before last
      mergeAll less patience (run :: first :: waiting)
termination_by runs => runs.length

/-- Sorts a list. Items of which neither is less keep their order. -/
def ascending (less : α → α → Except ε Bool) (xs : List α) : Except ε (List α) := do
  let (waiting, patience) ← pushRuns less xs.length (leastRun xs.length) worthwhile [] xs
  mergeAll less patience (waiting.map (·.1))

end MergeSort

/-- Sorts a list in either direction. Items of which neither is less keep their order in both. -/
def stableSort {ε α : Type} (less : α → α → Except ε Bool) (reversed : Bool) (xs : List α) :
    Except ε (List α) := do
  if reversed then return (← MergeSort.ascending less xs.reverse).reverse
  else MergeSort.ascending less xs

end LoopScript
