/-!
Searches for the place where a test ceases to hold. The items of the list pass the test up to some
place and fail it from there on, and the test may refuse an item.
-/

namespace LoopScript

namespace MergeSort

variable {ε α : Type}

/-- The end of a sequence at which something begins. -/
inductive Side where
  | front
  | back
deriving DecidableEq, Repr

/-- The middle of a range of places that are counted from the given end. Of the two middles of an
even range it is the one further to the back. -/
def Side.middle (side : Side) (low high : Nat) : Nat :=
  match side with
  | front => low + (high - low) / 2
  | back => low + (high - low - 1) / 2

def passes (test : α → Except ε Bool) (xs : List α) (i : Nat) : Except ε Bool :=
  match xs[i]? with
  | some x => test x
  | none => .ok false

/-- The first place in a range at which an item fails the test. The range is halved again and
again. -/
def boundary (side : Side) (test : α → Except ε Bool) (xs : List α) (low high : Nat) :
    Except ε Nat :=
  if _h : low < high then do
    let middle := side.middle low high
    if ← passes test xs middle then boundary side test xs (middle + 1) high
    else boundary side test xs low middle
  else .ok low
termination_by high - low
decreasing_by
  all_goals
    cases side <;> simp only [Side.middle] <;> omega

/-- Doubles the step until an item fails the test: gives the last place tried where one passes it,
and the place behind which none does. -/
def stride (test : α → Except ε Bool) (xs : List α) (last next : Nat) : Except ε (Nat × Nat) :=
  match _h : xs[next]? with
  | none => .ok (last, xs.length)
  | some x => do
    if ← test x then stride test xs next (2 * next + 1) else .ok (last, next)
termination_by xs.length - next
decreasing_by
  have := (List.getElem?_eq_some_iff.mp _h).1
  omega

/-- How many items at the head of a list pass the test. It is fast if they are few. -/
def gallop (side : Side) (test : α → Except ε Bool) (xs : List α) : Except ε Nat := do
  if ← passes test xs 0 then
    let (last, next) ← stride test xs 0 1
    boundary side test xs (last + 1) next
  else .ok 0

end MergeSort

end LoopScript
