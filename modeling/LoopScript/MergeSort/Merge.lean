import LoopScript.MergeSort.Search

/-!
Merging two sorted runs, of which one comes before the other. Items of which neither is less keep
their order. A merge compares item by item; if one run wins many times in a row, it gallops through
that run instead.
-/

namespace LoopScript

namespace MergeSort

variable {ε α : Type}

/-- Whether an item `y` of the later run comes out before an item `x` of the earlier one, in a merge
that begins at the given end. -/
def Side.leads (side : Side) (less : α → α → Except ε Bool) (y x : α) : Except ε Bool :=
  return (← less y x) == (side == .front)

/-- How many items of the earlier run come out before an item of the later one. -/
def Side.countBefore (side : Side) (less : α → α → Except ε Bool) (y : α) (xs : List α) :
    Except ε Nat :=
  gallop side (fun x => return !(← side.leads less y x)) xs

/-- How many items of the later run come out before an item of the earlier one. -/
def Side.countLeading (side : Side) (less : α → α → Except ε Bool) (x : α) (ys : List α) :
    Except ε Nat :=
  gallop side (fun y => side.leads less y x) ys

/-- The end of a merge that needs no more comparisons. The run that does not give the first item
gives the last one. -/
def Side.remainder? : Side → List α → List α → Option (List α)
  | _, [], ys => some ys
  | _, xs, [] => some xs
  | front, [x], ys => some (ys ++ [x])
  | back, xs, [y] => some (xs ++ [y])
  | _, _, _ => none

/-- How a merge goes on. -/
inductive Pace where
  /-- One item at a time, after so many wins in a row of the earlier or the later run. -/
  | walk (earlier later : Nat)
  /-- With as many items as possible of the earlier run. -/
  | gallop
  /-- With as many items as possible of the later run, after so many of the earlier one. -/
  | gallopBack (taken : Nat)

/-- A gallop is worth its while if it takes this many items. -/
def worthwhile : Nat := 7

/-- The pace and the patience after a round of galloping that has taken so many items at once.
Patience shrinks with each successful round and grows with the last one. -/
def Pace.next (patience taken : Nat) : Pace × Nat :=
  if worthwhile ≤ taken then (.gallop, max 1 (patience - 1)) else (.walk 0 0, patience + 1)

/-- Merges what is left of two runs, each beginning at the given end. Patience is the number of wins
in a row after which the merge gallops; the one it ends with is given back. -/
def merge (less : α → α → Except ε Bool) (side : Side) (pace : Pace) (patience : Nat)
    (xs ys : List α) : Except ε (List α × Nat) :=
  match side.remainder? xs ys, xs, ys with
  | none, x :: xs, y :: ys =>
    match pace with
    | .walk m n => do
      if ← side.leads less y x then
        let pace := if patience ≤ n + 1 then .gallop else .walk 0 (n + 1)
        let (zs, patience) ← merge less side pace patience (x :: xs) ys
        return (y :: zs, patience)
      else
        let pace := if patience ≤ m + 1 then .gallop else .walk (m + 1) 0
        let (zs, patience) ← merge less side pace patience xs (y :: ys)
        return (x :: zs, patience)
    | .gallop => do
      let k ← side.countBefore less y (x :: xs)
      let (zs, patience) ← merge less side (.gallopBack k) patience ((x :: xs).drop k) ys
      return ((x :: xs).take k ++ y :: zs, patience)
    | .gallopBack k => do
      let l ← side.countLeading less x (y :: ys)
      let left := (y :: ys).drop l
      let (pace, patience) := match side.remainder? xs left with
        | some _ => (.gallop, patience)
        | none => Pace.next patience (max k l)
      let (zs, patience) ← merge less side pace patience xs left
      return ((y :: ys).take l ++ x :: zs, patience)
  | rest, _, _ => .ok (rest.getD [], patience)
termination_by xs.length + ys.length
decreasing_by
  all_goals
    simp only [List.length_cons, List.length_drop]
    omega

/-- Merges two runs of which the first item of the one is known to come out first, and the last item
of the other to come out last. -/
def mergeFrom (less : α → α → Except ε Bool) (side : Side) (patience : Nat) (xs ys : List α) :
    Except ε (List α × Nat) := do
  match side, xs, ys with
  | .front, xs, y :: ys =>
    let (zs, patience) ← merge less .front (.walk 0 0) patience xs ys
    return (y :: zs, patience)
  | .back, x :: xs, ys =>
    let (zs, patience) ← merge less .back (.walk 0 0) patience xs ys
    return (x :: zs, patience)
  | _, xs, ys => .ok (xs ++ ys, patience)

/-- Merges two runs from the front if the earlier one is not longer than the later one, and else
from the back. -/
def mergeOverlap (less : α → α → Except ε Bool) (patience : Nat) (xs ys : List α) :
    Except ε (List α × Nat) := do
  if xs.length ≤ ys.length then mergeFrom less .front patience xs ys
  else
    let (zs, patience) ← mergeFrom less .back patience xs.reverse ys.reverse
    return (zs.reverse, patience)

/-- Merges two neighbouring runs. What is in its place already at either end stays there. -/
def mergeRuns (less : α → α → Except ε Bool) (patience : Nat) (earlier later : List α) :
    Except ε (List α × Nat) := do
  match later with
  | [] => return (earlier, patience)
  | y :: _ =>
    let k ← Side.front.countBefore less y earlier
    match (earlier.drop k).getLast? with
    | none => return (earlier ++ later, patience)
    | some x =>
      let n := later.length - (← Side.back.countLeading less x later.reverse)
      let (zs, patience) ← mergeOverlap less patience (earlier.drop k) (later.take n)
      return (earlier.take k ++ zs ++ later.drop n, patience)

end MergeSort

end LoopScript
